import Yamq.Rpc.BufferGrowth

/-! The `int` arithmetic of `Put` and `Retrieve`: which byte counts a buffer can take before a size or
an index no longer fits. -/
namespace Yamq

namespace IoBuffer

variable {b c d : IoBuffer}

/-- Both indices lie between 0 and `2 ^ 31 - 1`. -/
def IndicesFit (b : IoBuffer) : Prop :=
  (0 ≤ b.readerIndex ∧ b.readerIndex < 2147483648) ∧ 0 ≤ b.writerIndex ∧ b.writerIndex < 2147483648

/-- The new bytes have room in the vector before they are copied, the writer moves by their number,
and neither index leaves its range. -/
def PutSafe (b : IoBuffer) (data : Bytes) : Prop :=
  ∃ d c, b.ensureSpace data.length = .ok d ∧ d.writerIndex + data.length ≤ d.buf.length ∧
    d.IndicesFit ∧ b.put data = .ok c ∧ c.writerIndex = d.writerIndex + data.length ∧ c.IndicesFit

/-- `Retrieve` once the space behind the writer is full, before it calls `Put`. -/
def filled (b : IoBuffer) (data : Bytes) : Except Fault IoBuffer := do
  let buf ← store b.buf b.writerIndex (data.take (toSize b.writableBytes))
  { b with buf := buf }.wseek (toInt (toSize b.writableBytes))

theorem retrieve_filled {data : Bytes} (beyond : toSize b.writableBytes < data.length) :
    b.retrieve (.bytes data) = do
      let d ← b.filled data
      return (data.length, ← d.put (data.drop (toSize b.writableBytes))) := by
  simp only [retrieve, filled, if_neg (Nat.not_le.mpr beyond), bind_assoc]

/-- The same for `Retrieve`: for what `readv` stores behind the writer, and for the `Put` of the
rest. -/
def RetrieveSafe (b : IoBuffer) (data : Bytes) : Prop :=
  if data.length ≤ toSize b.writableBytes then
    b.writerIndex + data.length ≤ b.buf.length ∧ ∃ c, b.retrieve (.bytes data) = .ok (data.length, c) ∧
      c.writerIndex = b.writerIndex + data.length ∧ c.IndicesFit
  else ∃ d, b.filled data = .ok d ∧ d.IndicesFit ∧ d.PutSafe (data.drop (toSize b.writableBytes))

/-! Where the indices stand while every count so far was taken. The initial sizes for which the
constructor's sum wraps leave the writer behind the vector until something is put. -/

structure Ranged (b : IoBuffer) : Prop where
  reader : 0 ≤ b.readerIndex
  order : b.readerIndex ≤ b.writerIndex
  start : 8 ≤ b.writerIndex
  high : b.writerIndex < 2147483648
  inside : b.writerIndex ≤ b.buf.length ∨ b.readerIndex ≤ 8 ∧ b.writerIndex = 8

theorem Ranged.fits (h : Ranged b) : b.IndicesFit := by
  have := h.reader; have := h.order; have := h.start; have := h.high
  exact ⟨⟨by omega, by omega⟩, by omega, by omega⟩

theorem ranged_start (buf : Bytes) : Ranged ⟨buf, kCheapPrepend, kCheapPrepend⟩ := by
  constructor <;> simp [kCheapPrepend]

theorem store_ok {buf data : Bytes} {i : Int} (low : 0 ≤ i) (room : i + data.length ≤ buf.length) :
    ∃ buf', store buf i data = .ok buf' := ⟨_, if_pos ⟨low, room⟩⟩

theorem load_ok {buf : Bytes} {i : Int} {n : Nat} (low : 0 ≤ i) (inside : i + n ≤ buf.length) :
    ∃ data, load buf i n = .ok data := ⟨_, if_pos ⟨low, inside⟩⟩

/-- Copying behind the writer and moving it on. -/
theorem write_ok {new : Bytes} {k : Int} (low : 0 ≤ b.writerIndex)
    (room : b.writerIndex + new.length ≤ b.buf.length) (least : 0 ≤ k) (offered : k ≤ b.writableBytes)
    (last : b.writerIndex + k < 2147483648) : ∃ buf, store b.buf b.writerIndex new = .ok buf ∧
      { b with buf := buf }.wseek k = .ok { b with buf := buf, writerIndex := b.writerIndex + k } := by
  obtain ⟨buf, stored⟩ := store_ok low room
  have same := (store_size stored).2.2
  refine ⟨buf, stored, wseek_eq_ok.mpr ⟨?_, by dsimp only; omega, last, rfl⟩⟩
  rw [writableBytes] at offered ⊢
  dsimp only
  rw [same]
  exact offered

theorem Ranged.compact (h : Ranged b) (advanced : 8 < b.readerIndex) :
    ∃ d, b.compact = .ok d ∧ d.readerIndex = 8 ∧
      d.writerIndex = 8 + (b.writerIndex - b.readerIndex) ∧ d.buf.length = b.buf.length := by
  have order := h.order; have high := h.high
  have inside : b.writerIndex ≤ b.buf.length := by
    rcases h.inside with inside | outside <;> omega
  have size : (toSize b.readableBytes : Int) = b.writerIndex - b.readerIndex := by
    rw [toSize_small] <;> simp only [readableBytes] <;> omega
  obtain ⟨readable, loaded⟩ := @load_ok b.buf b.readerIndex
    (toSize b.readableBytes) (by omega) (by omega)
  have width := (load_size loaded).2
  obtain ⟨buf, stored⟩ := @store_ok b.buf readable kCheapPrepend (by decide)
    (by simp only [kCheapPrepend, width]; omega)
  have run : b.compact = .ok ⟨buf, kCheapPrepend, kCheapPrepend + toSize b.readableBytes⟩ := by
    have start : kCheapPrepend < b.readerIndex := advanced
    rw [IoBuffer.compact, if_pos start, loaded, ok_bind, stored, ok_bind, pure_ok]
  obtain ⟨_, reader, writer, same⟩ := compact_indices run
  exact ⟨_, run, reader, by rw [writer, size], same⟩

/-- The buffer takes `n` bytes at its writer. -/
structure Ready (b : IoBuffer) (n : Nat) : Prop where
  start : 8 ≤ b.writerIndex
  fits : b.IndicesFit
  high : b.writerIndex + n < 2147483648
  room : b.writerIndex + n ≤ b.buf.length
  offered : n ≤ b.writableBytes

section
variable {n : Nat}

theorem Ranged.ready_here (h : Ranged b) (roomy : n ≤ b.writableBytes)
    (high : b.writerIndex + n < 2147483648) : b.Ready n := by
  have start := h.start
  refine ⟨start, h.fits, high, ?_, roomy⟩
  rw [writableBytes] at roomy
  unfold toInt at roomy
  omega

theorem Ranged.ready_grown (h : Ranged b) (high : b.writerIndex + n < 2147483648) :
    Ready { b with buf := resize b.buf (toSize (b.writerIndex + n)) } n := by
  have start := h.start
  have target : (toSize (b.writerIndex + n) : Int) = b.writerIndex + n := by
    rw [toSize_small] <;> omega
  have behind : b.writerIndex + n - b.writerIndex = (n : Int) := by omega
  refine ⟨start, h.fits, high, ?_, ?_⟩
  · dsimp only
    rw [resize_length]
    exact Int.le_of_eq target.symm
  · rw [writableBytes, resize_length, target, behind]
    exact Int.le_of_eq (toInt_small (by omega) (by omega)).symm

theorem Ranged.ready_moved (h : Ranged b) (wide : n + 8 ≤ b.writableBytes + b.readerIndex)
    (tight : b.writableBytes < n) (sum : b.writableBytes + b.readerIndex < 2147483648)
    (high : b.writerIndex - b.readerIndex + n + 8 < 2147483648) :
    ∃ d, b.compact = .ok d ∧ d.Ready n := by
  have order := h.order
  obtain ⟨d, run, first, last, same⟩ := h.compact (by omega)
  have inside : 0 ≤ b.buf.length - d.writerIndex := by
    rcases h.inside with inside | outside <;> omega
  have space : d.writableBytes = b.writableBytes + b.readerIndex - 8 := by
    rw [writableBytes, same, last]
    rw [writableBytes] at wide tight sum ⊢
    unfold toInt at *
    omega
  have room : (n : Int) ≤ b.buf.length - d.writerIndex := by
    rw [writableBytes, same] at space
    unfold toInt at space
    omega
  exact ⟨d, run, by omega, ⟨⟨by omega, by omega⟩, by omega, by omega⟩, by omega,
    by rw [same]; omega, by omega⟩

/-- With room for `n` bytes, `ensureSpace` finds or makes it. -/
theorem Ranged.ensureSpace (h : Ranged b) (stays : b.PutStays n) :
    ∃ d, b.ensureSpace n = .ok d ∧ d.Ready n := by
  have reader := h.reader; have order := h.order; have start := h.start
  have bounds := toInt_bounds (b.buf.length - b.writerIndex)
  rw [PutStays] at stays
  simp only [readableBytes] at stays
  have size : toInt n = n := toInt_small (by omega) (by omega)
  unfold IoBuffer.ensureSpace
  by_cases tight : b.writableBytes < n
  · have sum : addInt b.writableBytes b.readerIndex = .ok (b.writableBytes + b.readerIndex) :=
      addInt_ok (by rw [writableBytes]; omega) (by omega)
    have need : addInt n kCheapPrepend = .ok (n + 8) :=
      addInt_ok (a := n) (b := 8) (by omega) (by omega)
    rw [size, if_pos tight]
    simp only [makeSpace, prependBytes, size, sum, need, ok_bind]
    by_cases narrow : b.writableBytes + b.readerIndex < n + 8
    · rw [if_pos narrow]
      exact ⟨_, rfl, h.ready_grown (by omega)⟩
    · rw [if_neg narrow]
      exact h.ready_moved (by omega) tight (by omega) (by omega)
  · rw [size, if_neg tight]
    exact ⟨b, rfl, h.ready_here (by omega) (by omega)⟩

end

/-- For any number of bytes, any size of the vector and any place of the indices in it. -/
theorem Ranged.putSafe_iff (h : Ranged b) (data : Bytes) :
    b.PutSafe data ↔ b.PutStays data.length := by
  constructor
  · rintro ⟨d, c, spaced, _, fits, run, moved, last⟩
    obtain ⟨d', same, run⟩ := bind_eq_ok.mp run
    cases spaced.symm.trans same
    obtain ⟨buf, _, run⟩ := bind_eq_ok.mp run
    obtain ⟨_, _, _, rfl⟩ := wseek_eq_ok.mp run
    have top := last.2.2
    have low := fits.2.1
    dsimp only at moved top
    have size : toInt data.length = data.length := by omega
    rw [size] at top
    rcases ensureSpace_cases spaced with ⟨_, rfl⟩ | ⟨_, _, rfl⟩ | ⟨tight, wide, sum, compacted⟩
    · exact .inl top
    · exact .inl top
    · obtain ⟨advanced, _, writer, _⟩ := compact_indices compacted
      have order := h.order; have high := h.high
      have readable : (toSize b.readableBytes : Int) = b.readableBytes := by
        rw [toSize_small] <;> simp only [readableBytes] <;> omega
      rw [size] at tight wide
      exact .inr ⟨tight, wide, sum, by omega⟩
  · intro stays
    obtain ⟨d, spaced, ready⟩ := h.ensureSpace stays
    have start := ready.start; have high := ready.high
    have size : toInt data.length = data.length := toInt_small (by omega) (by omega)
    obtain ⟨buf, stored, moved⟩ := write_ok (by omega) ready.room (by omega) ready.offered high
    have run : b.put data = .ok { d with buf := buf, writerIndex := d.writerIndex + data.length } := by
      rw [put, spaced, ok_bind, stored, ok_bind, size, moved]
    exact ⟨d, _, spaced, ready.room, ready.fits, run, rfl, ready.fits.1, by dsimp only; omega, high⟩

section
variable {data : Bytes}

/-- Where `writableBytes` is not negative the vector has that room. -/
theorem Ranged.shown (h : Ranged b) (ready : 0 ≤ b.writableBytes) :
    b.writerIndex + b.writableBytes ≤ b.buf.length ∧
      (toSize b.writableBytes : Int) = b.writableBytes ∧
      toInt (toSize b.writableBytes) = b.writableBytes := by
  have start := h.start; have high := h.high; have outer := h.inside
  have bounds := toInt_bounds (b.buf.length - b.writerIndex)
  have size : (toSize b.writableBytes : Int) = b.writableBytes := by
    rw [toSize_small ready (by rw [writableBytes]; omega)]
    omega
  refine ⟨?_, size, ?_⟩
  · rw [writableBytes] at ready ⊢
    unfold toInt at *
    omega
  · rw [size]
    exact toInt_small (by omega) (by rw [writableBytes]; omega)

/-- The space behind the writer is used up. -/
theorem Ranged.of_filled (h : Ranged b) (ready : 0 ≤ b.writableBytes)
    (run : b.filled data = .ok d) : Ranged d ∧ d.readerIndex = b.readerIndex ∧
      d.writerIndex = b.writerIndex + b.writableBytes ∧ d.writableBytes = 0 := by
  obtain ⟨room, size, same⟩ := h.shown ready
  obtain ⟨buf, stored, run⟩ := bind_eq_ok.mp run
  have width := (store_size stored).2.2
  rw [same] at run
  obtain ⟨_, _, high, rfl⟩ := wseek_eq_ok.mp run
  have reader := h.reader; have order := h.order; have start := h.start
  refine ⟨⟨reader, ?_, ?_, high, .inl ?_⟩, rfl, rfl, ?_⟩
  · dsimp only
    omega
  · dsimp only
    omega
  · rw [width]
    exact room
  · rw [writableBytes] at ready room ⊢
    dsimp only
    rw [width]
    rw [writableBytes]
    unfold toInt at *
    omega

theorem Ranged.filled (h : Ranged b) (ready : 0 ≤ b.writableBytes)
    (beyond : toSize b.writableBytes < data.length)
    (last : b.writerIndex + b.writableBytes < 2147483648) : ∃ d, b.filled data = .ok d := by
  obtain ⟨room, size, same⟩ := h.shown ready
  have start := h.start
  have width : (data.take (toSize b.writableBytes)).length = toSize b.writableBytes := by
    rw [List.length_take]
    omega
  obtain ⟨buf, stored, moved⟩ := @write_ok b (data.take (toSize b.writableBytes)) _ (by omega)
    (by omega) ready (Int.le_refl _) last
  exact ⟨_, by rw [IoBuffer.filled, stored, ok_bind, same, moved]⟩

theorem Ranged.retrieveSafe_iff (h : Ranged b) (ready : 0 ≤ b.writableBytes) :
    b.RetrieveSafe data ↔ b.RetrieveStays data.length := by
  obtain ⟨room, size, _⟩ := h.shown ready
  have reader := h.reader; have order := h.order; have start := h.start
  by_cases inside : data.length ≤ toSize b.writableBytes
  · rw [RetrieveSafe, if_pos inside, RetrieveStays]
    constructor
    · rintro ⟨_, c, _, moved, last⟩
      exact .inl (by rw [← moved]; exact last.2.2)
    · intro stays
      have high : b.writerIndex + data.length < 2147483648 := by omega
      have width : toInt data.length = data.length := toInt_small (by omega) (by omega)
      obtain ⟨buf, stored, moved⟩ := @write_ok b data data.length (by omega) (by omega)
        (by omega) (by omega) high
      have run : b.retrieve (.bytes data) = .ok (data.length,
          { b with buf := buf, writerIndex := b.writerIndex + data.length }) := by
        simp only [IoBuffer.retrieve, List.take_of_length_le inside, stored, ok_bind, if_pos inside,
          width, moved, pure_ok]
      exact ⟨by omega, _, run, rfl, h.fits.1, by dsimp only; omega, high⟩
  · have beyond := Nat.not_le.mp inside
    have rest : ((data.drop (toSize b.writableBytes)).length : Int) =
        data.length - b.writableBytes := by
      rw [List.length_drop]
      omega
    rw [RetrieveSafe, if_neg inside, RetrieveStays]
    constructor
    · rintro ⟨d, run, _, safe⟩
      obtain ⟨ranged, same, writer, space⟩ := h.of_filled ready run
      have stays := (ranged.putSafe_iff _).mp safe
      have high := ranged.high
      rw [PutStays, rest, writer, space, same] at stays
      omega
    · intro stays
      obtain ⟨d, run⟩ := h.filled ready beyond (by omega)
      obtain ⟨ranged, same, writer, space⟩ := h.of_filled ready run
      refine ⟨d, run, ranged.fits, (ranged.putSafe_iff _).mpr ?_⟩
      rw [PutStays, rest, writer, space, readableBytes, writer, same]
      omega

/-! Every call that returns keeps the indices in their places, if what it hands to `Put` is shorter than
`2 ^ 31` bytes. -/

theorem Ranged.spaced (h : Ranged b) {n : Nat} (run : b.ensureSpace n = .ok d) :
    0 ≤ d.readerIndex ∧ d.readerIndex ≤ d.writerIndex ∧ 8 ≤ d.writerIndex := by
  have reader := h.reader; have order := h.order; have start := h.start; have high := h.high
  rcases ensureSpace_cases run with ⟨_, rfl⟩ | ⟨_, _, rfl⟩ | ⟨_, _, _, moved⟩
  · exact ⟨reader, order, start⟩
  · exact ⟨reader, order, start⟩
  · obtain ⟨_, first, last, _⟩ := compact_indices moved
    omega

theorem Ranged.put (h : Ranged b) (short : data.length < 2147483648) (run : b.put data = .ok c) :
    Ranged c := by
  obtain ⟨d, spaced, run⟩ := bind_eq_ok.mp run
  obtain ⟨buf, stored, moved⟩ := bind_eq_ok.mp run
  obtain ⟨reader, order, start⟩ := h.spaced spaced
  obtain ⟨_, room, same⟩ := store_size stored
  rw [toInt_small (by omega) (by omega)] at moved
  obtain ⟨_, _, high, rfl⟩ := wseek_eq_ok.mp moved
  exact ⟨reader, by dsimp only; omega, by dsimp only; omega, high, .inl (by dsimp only; omega)⟩

theorem Ranged.seek (h : Ranged b) {offset : Int} (least : 0 ≤ b.readerIndex + offset)
    (run : b.seek offset = .ok c) : Ranged c := by
  unfold IoBuffer.seek at run
  split at run
  · rename_i within
    split at run
    · obtain ⟨r, sum, run⟩ := bind_eq_ok.mp run
      cases run
      obtain ⟨rfl, _⟩ := addInt_eq_ok.mp sum
      rw [readableBytes] at within
      refine ⟨least, by dsimp only; omega, h.start, h.high, ?_⟩
      have start := h.start
      rcases h.inside with inside | ⟨_, outside⟩
      · exact .inl inside
      · exact .inr ⟨by dsimp only; omega, outside⟩
    · cases run
      exact ranged_start _
  · cases run

theorem Ranged.get (h : Ranged b) {size : Nat} (run : b.get size = .ok (data, c)) : Ranged c := by
  have reader := h.reader; have order := h.order; have high := h.high
  unfold IoBuffer.get at run
  split at run
  · cases run
    exact h
  · obtain ⟨_, _, run⟩ := bind_eq_ok.mp run
    obtain ⟨e, sought, run⟩ := bind_eq_ok.mp run
    cases run
    have readable : (toSize b.readableBytes : Int) = b.writerIndex - b.readerIndex := by
      rw [toSize_small] <;> simp only [readableBytes] <;> omega
    have actual : (if size < toSize b.readableBytes then size else toSize b.readableBytes) ≤
        toSize b.readableBytes := by
      split <;> omega
    refine h.seek ?_ sought
    rw [toInt_small (by omega) (by omega)]
    omega

theorem Ranged.retrieve (h : Ranged b) (ready : 0 ≤ b.writableBytes)
    (short : data.length < 2147483648) {n : Nat} (run : b.retrieve (.bytes data) = .ok (n, c)) :
    Ranged c := by
  by_cases inside : data.length ≤ toSize b.writableBytes
  · have reader := h.reader; have order := h.order; have start := h.start
    obtain ⟨buf, stored, run⟩ := bind_eq_ok.mp run
    obtain ⟨_, room, same⟩ := store_size stored
    rw [if_pos inside] at run
    obtain ⟨e, moved, run⟩ := bind_eq_ok.mp run
    cases run
    rw [toInt_small (by omega) (by omega)] at moved
    obtain ⟨_, _, high, rfl⟩ := wseek_eq_ok.mp moved
    rw [List.take_of_length_le inside] at room
    exact ⟨reader, by dsimp only; omega, by dsimp only; omega, high, .inl (by dsimp only; omega)⟩
  · rw [retrieve_filled (Nat.not_le.mp inside)] at run
    obtain ⟨d, filled, run⟩ := bind_eq_ok.mp run
    obtain ⟨e, put, run⟩ := bind_eq_ok.mp run
    cases run
    exact (h.of_filled ready filled).1.put (by rw [List.length_drop]; omega) put

theorem Ranged.shrink (h : Ranged b) {reserve : Int} (run : b.shrink reserve = .ok c) :
    Ranged c := by
  have reader := h.reader; have order := h.order; have high := h.high
  obtain ⟨total, _, run⟩ := bind_eq_ok.mp run
  obtain ⟨fresh, spaced, run⟩ := bind_eq_ok.mp run
  obtain ⟨data, loaded, run⟩ := bind_eq_ok.mp run
  have ready : Ranged fresh := by
    rcases ensureSpace_cases spaced with ⟨_, rfl⟩ | ⟨_, _, rfl⟩ | ⟨_, _, _, moved⟩
    · exact ranged_start _
    · exact ranged_start _
    · have advanced : (8 : Int) < 8 := (compact_indices moved).1
      exact absurd advanced (Int.lt_irrefl 8)
  refine ready.put ?_ run
  rw [(load_size loaded).2, toSize_small] <;> simp only [readableBytes] <;> omega

end

end IoBuffer

open IoBuffer Transition

namespace BufferOp

/-- The indices stay below `2 ^ 31`, and `Seek` does not move the reader in front of the vector. -/
def Within (b : IoBuffer) : BufferOp → Prop
  | put data => b.PutStays data.length
  | append data => b.PutStays data.length
  | putInt32 _ => b.PutStays 4
  | putString str => b.PutStays str.length
  | retrieve data => 0 ≤ b.writableBytes ∧ b.RetrieveStays data.length
  | seek offset => 0 ≤ b.readerIndex + offset
  | getAsString n => 0 ≤ b.readerIndex + n
  | _ => True

def Steps (b : IoBuffer) (op : BufferOp) (c : IoBuffer) : Prop := ∃ answer, op.run b = .ok (answer, c)

theorem putStays_short {b : IoBuffer} (h : Ranged b) {n : Nat} (stays : b.PutStays n) :
    n < 2147483648 := by
  have start := h.start; have order := h.order
  rw [PutStays, readableBytes] at stays
  omega

theorem retrieveStays_short {b : IoBuffer} (h : Ranged b) {n : Nat} (stays : b.RetrieveStays n) :
    n < 2147483648 := by
  have start := h.start; have order := h.order
  rw [RetrieveStays] at stays
  omega

theorem Within.short {b : IoBuffer} (h : Ranged b) {op : BufferOp} (within : op.Within b) :
    op.putBytes b < 2147483648 := by
  cases op with
  | put data => exact putStays_short h within
  | append data => exact putStays_short h within
  | putInt32 val => exact putStays_short h within
  | putString str => exact putStays_short h within
  | retrieve data => exact Nat.lt_of_le_of_lt (Nat.sub_le ..) (retrieveStays_short h within.2)
  | _ => exact Nat.zero_lt_succ _

theorem Steps.ranged {b c : IoBuffer} {op : BufferOp} (h : Ranged b) (within : op.Within b)
    (taken : Steps b op c) : Ranged c := by
  obtain ⟨answer, run⟩ := taken
  rcases run_cases run with ⟨data, size, put⟩ | ⟨data, n, rfl, read⟩ | ⟨size, data, read⟩ |
    ⟨offset, same, sought⟩ | ⟨reserve, _, shrunk⟩ | ⟨_, rfl⟩
  · exact h.put (by rw [size]; exact within.short h) put
  · exact h.retrieve within.1 (retrieveStays_short h within.2) read
  · exact h.get read
  · rcases same with rfl | rfl
    · exact h.seek within sought
    · exact h.seek within sought
  · exact h.shrink shrunk
  · exact ranged_start _

/-- In every run of calls that were within the range, on a buffer of any initial size: both indices
lie in it, and the next `Put` or `Retrieve` makes room before it copies and leaves them there exactly
when its number of bytes is within the range too. Where `writableBytes` is negative, the length given
to `readv` is beyond the largest count it can report, and it fails. -/
theorem stays_in_range_iff (initialSize : UInt64) (b : IoBuffer)
    (run : Reaches Steps Within (construct initialSize) b) (data : Bytes) :
    b.IndicesFit ∧ (b.PutSafe data ↔ b.PutStays data.length) ∧
      (0 ≤ b.writableBytes → (b.RetrieveSafe data ↔ b.RetrieveStays data.length)) := by
  have ranged : Ranged b := run.invariant (ranged_start _) fun _ _ _ h within taken =>
    taken.ranged h within
  exact ⟨ranged.fits, ranged.putSafe_iff data, ranged.retrieveSafe_iff⟩

/-- Two bytes in a buffer of four; three more follow by either way. -/
theorem stays_in_range_five : ∃ b : IoBuffer, Reaches Steps Within (construct 4) b ∧
    b.IndicesFit ∧ b.PutSafe [3, 4, 5] ∧ b.RetrieveSafe [3, 4, 5] := by
  have run : Reaches Steps Within (construct 4)
      ⟨[0, 0, 0, 0, 0, 0, 0, 0, 1, 2, 0, 0], 8, 10⟩ :=
    .step .start (show Within _ (.put [1, 2]) from .inl (by decide))
      ⟨.nothing, by decide +kernel⟩
  obtain ⟨fit, put, read⟩ := stays_in_range_iff 4 _ run [3, 4, 5]
  exact ⟨_, run, fit, put.mpr (.inl (by decide)), (read (by decide +kernel)).mpr (.inl (by decide))⟩

/-! What the failing counts do. -/

theorem retrieve_reader {b c : IoBuffer} {data : Bytes} {n : Nat}
    (run : b.retrieve (.bytes data) = .ok (n, c)) :
    c.readerIndex = b.readerIndex ∨ c.readerIndex = kCheapPrepend := by
  by_cases inside : data.length ≤ toSize b.writableBytes
  · obtain ⟨buf, _, run⟩ := bind_eq_ok.mp run
    rw [if_pos inside] at run
    obtain ⟨e, moved, run⟩ := bind_eq_ok.mp run
    cases run
    obtain ⟨_, _, _, rfl⟩ := wseek_eq_ok.mp moved
    exact .inl rfl
  · rw [retrieve_filled (Nat.not_le.mp inside)] at run
    obtain ⟨d, filled, run⟩ := bind_eq_ok.mp run
    obtain ⟨e, put, run⟩ := bind_eq_ok.mp run
    cases run
    obtain ⟨buf, _, moved⟩ := bind_eq_ok.mp filled
    obtain ⟨_, _, _, rfl⟩ := wseek_eq_ok.mp moved
    exact (put_bounds put).2

/-- A peer that keeps sending, of which nothing is consumed. -/
def Receives (b : IoBuffer) (op : BufferOp) : Prop := op.Within b ∧ ∃ data, op = .retrieve data

theorem receives_many (k : Nat) (short : 8 + k * 65536 < 2147483648) :
    ∃ b, Reaches Steps Receives (construct 1024) b ∧ b.Small ∧ b.readerIndex = 8 ∧
      b.contents = List.replicate (k * 65536) 65 := by
  induction k with
  | zero =>
    have fresh : construct 1024 = new 1024 := construct_eq_new (by decide)
    refine ⟨construct 1024, .start, ?_, rfl, ?_⟩
    · rw [fresh]
      exact new_small _ (by decide)
    · rw [fresh, new_contents, Nat.zero_mul, List.replicate_zero]
  | succ k ih =>
    rw [Nat.succ_mul] at short
    have fewer : 8 + k * 65536 ≤ 8 + (k * 65536 + 65536) :=
      Nat.add_le_add_left (Nat.le_add_right ..) 8
    obtain ⟨b, run, small, reader, contents⟩ := ih (Nat.lt_of_le_of_lt fewer short)
    have len := contents_length small.toLayout
    have size := small.size; have inside := small.inside
    rw [contents, List.length_replicate, readableBytes, reader] at len
    have wide : (List.replicate 65536 (65 : Byte)).length = 65536 := List.length_replicate
    have high : b.writerIndex + 65536 < 2147483648 := by omega
    obtain ⟨c, read, small', contents'⟩ := retrieve_fits small (List.replicate 65536 65)
      (.inl (by rw [wide]; exact high)) (List.ne_nil_of_length_pos (by rw [wide]; omega))
    have ready : 0 ≤ b.writableBytes := by
      rw [writableBytes, toInt_small] <;> omega
    have start : c.readerIndex = 8 := (retrieve_reader read).elim (·.trans reader) id
    have taken : Steps b (.retrieve (List.replicate 65536 65)) c := by
      refine ⟨.count (List.replicate 65536 (65 : Byte)).length, ?_⟩
      rw [BufferOp.run, read]
      rfl
    have allowed : Receives b (.retrieve (List.replicate 65536 65)) :=
      ⟨⟨ready, .inl (by rw [wide]; exact high)⟩, _, rfl⟩
    refine ⟨c, run.step allowed taken, small', start, ?_⟩
    rw [contents', contents, ← List.replicate_add, Nat.succ_mul]

/-- A `Put` of `2 ^ 31` bytes into a new buffer; and a buffer that has received bytes without a line
end, until the next 65536 no longer fit. -/
theorem arithmetic_wraps :
    ((construct 1024).ensureSpace 2147483648 = .ok (construct 1024) ∧
      (construct 1024).put (List.replicate 2147483648 0) = .error .outOfBounds ∧
      ¬ (construct 1024).PutSafe (List.replicate 2147483648 0)) ∧
    ∃ b, Reaches Steps Receives (construct 1024) b ∧ PairSearch.NoPair CR LF b.contents ∧
      65536 ≤ b.offered ∧ ¬ b.RetrieveSafe (List.replicate 65536 65) := by
  have long : (List.replicate 2147483648 (0 : Byte)).length = 2147483648 := List.length_replicate
  have size : (construct 1024).buf.length = 1032 := List.length_replicate
  have same : (construct 1024).ensureSpace 2147483648 = .ok (construct 1024) := by
    rw [IoBuffer.ensureSpace, writableBytes, size, if_neg]
    change ¬ toInt ((1032 : Nat) - 8) < toInt (2147483648 : Nat)
    unfold toInt
    decide
  have outside : store (construct 1024).buf (construct 1024).writerIndex
      (List.replicate 2147483648 0) = .error .outOfBounds := by
    rw [store, if_neg]
    rw [size, long]
    decide
  have wraps : (construct 1024).put (List.replicate 2147483648 0) = .error .outOfBounds := by
    rw [IoBuffer.put, long, same, ok_bind, outside, error_bind]
  refine ⟨⟨same, wraps, ?_⟩, ?_⟩
  · rintro ⟨_, c, _, _, _, run, _⟩
    exact ok_ne_error (run.symm.trans wraps)
  · obtain ⟨b, run, small, reader, contents⟩ := receives_many 32767 (by decide)
    have ranged : Ranged b := run.invariant (ranged_start _) fun _ _ _ h received taken =>
      taken.ranged h received.1
    have len := contents_length small.toLayout
    have size := small.size; have inside := small.inside
    rw [contents, List.length_replicate, readableBytes, reader] at len
    have ready : 0 ≤ b.writableBytes := by
      rw [writableBytes, toInt_small] <;> omega
    refine ⟨b, run, ?_, ?_, ?_⟩
    · rintro i ⟨here, _⟩
      rw [contents, List.getElem?_replicate] at here
      split at here <;> cases here
    · rw [offered]
      split <;> omega
    · rw [ranged.retrieveSafe_iff ready, RetrieveStays, List.length_replicate]
      omega

end BufferOp

end Yamq
