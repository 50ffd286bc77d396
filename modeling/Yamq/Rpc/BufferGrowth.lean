import Yamq.Rpc.ByteFifo

/-! How large the vector of an `IoBuffer` becomes. `makeSpace` grows it to `_writer_index + n` without
moving the readable bytes down first, so the bound rests on how far the reader can be when it does. -/
namespace Yamq

namespace IoBuffer

variable {b c d : IoBuffer}

/-! `writableBytes` shows the space behind the writer modulo `2 ^ 32`, so in a vector of more than
`2 ^ 31` bytes it can be negative. It is so only while the writer stands at the start. -/

structure Tame (bound : Int) (b : IoBuffer) : Prop where
  size : b.buf.length ≤ bound
  low : -2147483648 ≤ b.writerIndex
  high : b.writerIndex < 2147483648
  ahead : 0 ≤ b.writableBytes → b.writerIndex + b.writableBytes < 2147483656
  behind : b.writableBytes < 0 → b.writerIndex ≤ 8

theorem construct_tame (s : UInt64) : Tame (s.toNat + 8) (construct s) := by
  have sum : (s + 8).toNat = (s.toNat + 8) % 18446744073709551616 := UInt64.toNat_add s 8
  have bounds := toInt_bounds (((s + 8).toNat : Int) - 8)
  constructor <;> simp only [construct, kCheapPrepend, writableBytes, List.length_replicate] <;> omega

section
variable {bound : Int} {M K : Nat}

theorem Tame.wseek (h : Tame bound d) {buf : Bytes} (same : buf.length = d.buf.length) {k : Int}
    (least : -2147483648 ≤ k) (run : { d with buf := buf }.wseek k = .ok c) : Tame bound c := by
  obtain ⟨offered, low, high, rfl⟩ := wseek_eq_ok.mp run
  have size := h.size; have ahead := h.ahead; have behind := h.behind
  simp only [writableBytes, same] at offered ahead behind low high
  constructor <;> simp only [writableBytes, same]
  · exact size
  · exact low
  · exact high
  · unfold toInt at *
    omega
  · unfold toInt at *
    omega

/-- The size after growing is `_writer_index + n`, at most `M` bytes behind the reader; the reader is
less than `n + 8` bytes from the start, or moving down would have made the room. -/
theorem Tame.ensureSpace (h : Tame bound b) {n : Nat} (large : M + K + 8 ≤ bound) (single : n ≤ K)
    (run : b.ensureSpace n = .ok d)
    (inside : 0 ≤ d.writerIndex ∧ d.writerIndex + n ≤ d.buf.length)
    (high : d.writerIndex + toInt n < 2147483648)
    (unread : d.writerIndex + toInt n - d.readerIndex ≤ M) : Tame bound d := by
  have ahead := h.ahead; have behind := h.behind; have low := h.low; have top := h.high
  have range := toInt_bounds n
  rcases ensureSpace_cases run with ⟨_, rfl⟩ | ⟨tight, narrow, rfl⟩ | ⟨_, wide, sum, moved⟩
  · exact h
  · dsimp only at inside high unread
    rw [resize_length] at inside
    have wrapped : toSize (b.writerIndex + n) ≤ b.writerIndex + n := by
      unfold toSize
      omega
    have size : (toSize (b.writerIndex + n) : Int) = b.writerIndex + n := by omega
    have space : toInt (b.writerIndex + n - b.writerIndex) = toInt n := by
      congr 1
      omega
    constructor <;> simp only [writableBytes, resize_length, size, space]
    · by_cases shown : 0 ≤ b.writableBytes
      · omega
      · omega
    · exact low
    · exact top
    · omega
    · omega
  · obtain ⟨advanced, reader, writer, same⟩ := compact_indices moved
    have bounds := toInt_bounds (b.buf.length - b.writerIndex)
    -- a reader behind the writer would make the number of readable bytes enormous
    have order : b.readerIndex ≤ b.writerIndex ∧
        d.writerIndex = 8 + (b.writerIndex - b.readerIndex) := by
      rw [writableBytes] at sum
      rw [readableBytes] at writer
      unfold toSize at writer
      omega
    have shown : 0 ≤ b.writableBytes := by omega
    have space : d.writableBytes = b.writableBytes + b.readerIndex - 8 := by
      rw [writableBytes, same, order.2]
      rw [writableBytes] at shown sum ⊢
      unfold toInt at *
      omega
    constructor
    · rw [same]
      exact h.size
    · omega
    · omega
    · omega
    · omega

theorem Tame.put (h : Tame bound b) {data : Bytes} (large : M + K + 8 ≤ bound)
    (single : data.length ≤ K) (run : b.put data = .ok c) (unread : c.readableBytes ≤ M) :
    Tame bound c := by
  obtain ⟨d, spaced, run⟩ := bind_eq_ok.mp run
  obtain ⟨buf, stored, moved⟩ := bind_eq_ok.mp run
  obtain ⟨first, last, same⟩ := store_size stored
  have least := (toInt_bounds data.length).1
  obtain ⟨_, _, high, rfl⟩ := wseek_eq_ok.mp moved
  have ready : Tame bound d := h.ensureSpace large single spaced ⟨first, last⟩ high unread
  exact ready.wseek same least moved

theorem Tame.seek (h : Tame bound b) {offset : Int} (run : b.seek offset = .ok c) :
    Tame bound c := by
  unfold IoBuffer.seek at run
  split at run
  · split at run
    · obtain ⟨r, _, run⟩ := bind_eq_ok.mp run
      cases run
      exact ⟨h.size, h.low, h.high, h.ahead, h.behind⟩
    · cases run
      have bounds := toInt_bounds (b.buf.length - 8)
      have size := h.size
      constructor <;> simp only [writableBytes, kCheapPrepend] <;> omega
  · cases run

theorem Tame.get (h : Tame bound b) {size : Nat} {data : Bytes} (run : b.get size = .ok (data, c)) :
    Tame bound c := by
  unfold IoBuffer.get at run
  split at run
  · cases run
    exact h
  · obtain ⟨_, _, run⟩ := bind_eq_ok.mp run
    obtain ⟨e, sought, run⟩ := bind_eq_ok.mp run
    cases run
    exact h.seek sought

theorem Tame.retrieve (h : Tame bound b) {data : Bytes} {n : Nat} (large : M + K + 8 ≤ bound)
    (single : data.length - toSize b.writableBytes ≤ K) (run : b.retrieve (.bytes data) = .ok (n, c))
    (unread : c.readableBytes ≤ M) : Tame bound c := by
  obtain ⟨buf, stored, run⟩ := bind_eq_ok.mp run
  have same := (store_size stored).2.2
  split at run
  · obtain ⟨d, moved, run⟩ := bind_eq_ok.mp run
    cases run
    exact h.wseek same (toInt_bounds _).1 moved
  · obtain ⟨d, moved, run⟩ := bind_eq_ok.mp run
    obtain ⟨e, put, run⟩ := bind_eq_ok.mp run
    cases run
    have full : Tame bound d := h.wseek same (toInt_bounds _).1 moved
    exact full.put large (by rwa [List.length_drop]) put unread

end

end IoBuffer

open IoBuffer Transition

namespace BufferOp

/-- How many bytes the call hands to `Put`: `Retrieve` those that did not fit behind the writer. -/
def putBytes (b : IoBuffer) : BufferOp → Nat
  | put data => data.length
  | append data => data.length
  | retrieve data => data.length - toSize b.writableBytes
  | putInt32 _ => 4
  | putString str => str.length
  | _ => 0

/-- `Shrink` and `Reset` replace the vector. -/
def KeepsVector : BufferOp → Prop
  | shrink _ => False
  | reset => False
  | _ => True

/-- A call that returns, hands at most `K` bytes to `Put` and leaves at most `M` bytes unread. -/
structure Passes (M K : Nat) (b : IoBuffer) (op : BufferOp) (c : IoBuffer) : Prop where
  keeps : op.KeepsVector
  returns : ∃ answer, op.run b = .ok (answer, c)
  single : op.putBytes b ≤ K
  unread : c.readableBytes ≤ M

/-- What a call that returns has done, whatever it was given. -/
theorem run_cases {b c : IoBuffer} {op : BufferOp} {answer : Answer}
    (run : op.run b = .ok (answer, c)) :
    (∃ data : Bytes, data.length = op.putBytes b ∧ b.put data = .ok c) ∨
    (∃ data n, op = .retrieve data ∧ b.retrieve (.bytes data) = .ok (n, c)) ∨
    (∃ size data, b.get size = .ok (data, c)) ∨
    (∃ offset, (op = .seek offset ∨ op = .getAsString offset) ∧ b.seek offset = .ok c) ∨
    (∃ reserve, op = .shrink reserve ∧ b.shrink reserve = .ok c) ∨
    (op = .reset ∧ c = b.reset) := by
  cases op with
  | put data =>
    obtain ⟨e, put, run⟩ := bind_eq_ok.mp run
    cases run
    exact .inl ⟨data, rfl, put⟩
  | append data =>
    obtain ⟨e, put, run⟩ := bind_eq_ok.mp run
    cases run
    exact .inl ⟨data, rfl, put⟩
  | putInt32 val =>
    obtain ⟨⟨n, e⟩, put, run⟩ := bind_eq_ok.mp run
    obtain ⟨e, put, same⟩ := bind_eq_ok.mp put
    cases same
    cases run
    exact .inl ⟨_, rfl, put⟩
  | putString str =>
    obtain ⟨⟨n, e⟩, put, run⟩ := bind_eq_ok.mp run
    obtain ⟨e, put, same⟩ := bind_eq_ok.mp put
    cases same
    cases run
    exact .inl ⟨str, rfl, put⟩
  | retrieve data =>
    obtain ⟨⟨n, e⟩, read, run⟩ := bind_eq_ok.mp run
    cases run
    exact .inr (.inl ⟨data, n, rfl, read⟩)
  | get size =>
    obtain ⟨⟨data, e⟩, read, run⟩ := bind_eq_ok.mp run
    cases run
    exact .inr (.inr (.inl ⟨size, data, read⟩))
  | getInt32 =>
    obtain ⟨⟨val, e⟩, read, run⟩ := bind_eq_ok.mp run
    obtain ⟨⟨data, e⟩, read, same⟩ := bind_eq_ok.mp read
    by_cases four : data.length = 4
    · simp only [if_pos four, pure_ok] at same
      cases same
      cases run
      exact .inr (.inr (.inl ⟨4, data, read⟩))
    · simp only [if_neg four] at same
      cases same
  | seek offset =>
    obtain ⟨e, sought, run⟩ := bind_eq_ok.mp run
    cases run
    exact .inr (.inr (.inr (.inl ⟨offset, .inl rfl, sought⟩)))
  | getAsString n =>
    obtain ⟨⟨str, e⟩, read, run⟩ := bind_eq_ok.mp run
    unfold IoBuffer.getAsString at read
    split at read
    · obtain ⟨_, _, read⟩ := bind_eq_ok.mp read
      obtain ⟨e, sought, same⟩ := bind_eq_ok.mp read
      cases same
      cases run
      exact .inr (.inr (.inr (.inl ⟨n, .inr rfl, sought⟩)))
    · cases read
  | shrink reserve =>
    obtain ⟨e, shrunk, run⟩ := bind_eq_ok.mp run
    cases run
    exact .inr (.inr (.inr (.inr (.inl ⟨reserve, rfl, shrunk⟩))))
  | reset =>
    cases run
    exact .inr (.inr (.inr (.inr (.inr ⟨rfl, rfl⟩))))

theorem Passes.tame {M K : Nat} {bound : Int} {b c : IoBuffer} {op : BufferOp}
    (passes : Passes M K b op c) (large : M + K + 8 ≤ bound) (h : Tame bound b) : Tame bound c := by
  obtain ⟨answer, run⟩ := passes.returns
  have keeps := passes.keeps
  have single := passes.single
  rcases run_cases run with ⟨data, size, put⟩ | ⟨data, n, rfl, read⟩ | ⟨size, data, read⟩ |
    ⟨offset, _, sought⟩ | ⟨reserve, rfl, _⟩ | ⟨rfl, _⟩
  · exact h.put large (by rwa [size]) put passes.unread
  · exact h.retrieve large single read passes.unread
  · exact h.get read
  · exact h.seek sought
  · exact keeps.elim
  · exact keeps.elim

/-- In every run of calls of which none hands more than `K` bytes to one `Put` and none leaves more
than `M` bytes unread, the vector stays below the larger of its first size and `M + K + 8`. -/
theorem size_bounded (initialSize : UInt64) (M K : Nat) (b : IoBuffer)
    (run : Reaches (Passes M K) Free (construct initialSize) b) :
    (b.buf.length : Int) ≤ max (initialSize.toNat + kCheapPrepend) (M + K + kCheapPrepend) := by
  have first : (initialSize.toNat : Int) + 8 ≤
      max (initialSize.toNat + kCheapPrepend) (M + K + kCheapPrepend) := Int.le_max_left ..
  have large : (M : Int) + K + 8 ≤
      max (initialSize.toNat + kCheapPrepend) (M + K + kCheapPrepend) := Int.le_max_right ..
  have start := construct_tame initialSize
  have init : Tame (max (initialSize.toNat + kCheapPrepend) (M + K + kCheapPrepend))
      (construct initialSize) :=
    ⟨Int.le_trans start.size first, start.low, start.high, start.ahead, start.behind⟩
  have tame := run.invariant init fun _ _ _ h _ passes => passes.tame large h
  exact tame.size

/-- Two bytes, one of which is read before two more arrive: the vector grows behind the reader. -/
theorem size_bounded_reader : ∃ b : IoBuffer, Reaches (Passes 3 2) Free (construct 2) b ∧
    b.buf.length = 12 ∧ (b.buf.length : Int) ≤
      max ((2 : UInt64).toNat + kCheapPrepend) ((3 : Nat) + (2 : Nat) + kCheapPrepend) := by
  have first : Passes 3 2 (construct 2) (.put [1, 2]) ⟨[0, 0, 0, 0, 0, 0, 0, 0, 1, 2], 8, 10⟩ :=
    ⟨trivial, ⟨.nothing, by decide +kernel⟩, by decide, by decide⟩
  have second : Passes 3 2 ⟨[0, 0, 0, 0, 0, 0, 0, 0, 1, 2], 8, 10⟩ (.get 1)
      ⟨[0, 0, 0, 0, 0, 0, 0, 0, 1, 2], 9, 10⟩ :=
    ⟨trivial, ⟨.bytes [1], by decide +kernel⟩, by decide, by decide⟩
  have third : Passes 3 2 ⟨[0, 0, 0, 0, 0, 0, 0, 0, 1, 2], 9, 10⟩ (.retrieve [3, 4])
      ⟨[0, 0, 0, 0, 0, 0, 0, 0, 1, 2, 3, 4], 9, 12⟩ :=
    ⟨trivial, ⟨.count 2, by decide +kernel⟩, by decide +kernel, by decide⟩
  have run : Reaches (Passes 3 2) Free (construct 2)
      ⟨[0, 0, 0, 0, 0, 0, 0, 0, 1, 2, 3, 4], 9, 12⟩ :=
    ((Reaches.start.step trivial first).step trivial second).step trivial third
  exact ⟨_, run, rfl, size_bounded 2 3 2 _ run⟩

end BufferOp

end Yamq
