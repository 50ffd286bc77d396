import Yamq.Lib.Transition
import Yamq.Rpc.IoBufferRoom
import Mathlib.Logic.Function.Basic

/-! `IoBuffer` as a queue of bytes: whatever is put, sought, read, moved and swapped, the readable
bytes of each buffer are those of a plain list. -/
namespace Yamq

namespace IoBuffer

/-- The constructor. `initial_size + kCheapPrepend` is a sum of `size_t`s. -/
def construct (initialSize : UInt64) : IoBuffer :=
  ⟨List.replicate (initialSize + 8).toNat 0, kCheapPrepend, kCheapPrepend⟩

/-- The object representation of an `int32_t`, on a little-endian machine. -/
def bytesOf (v : BitVec 32) : Bytes :=
  [⟨v.extractLsb' 0 8⟩, ⟨v.extractLsb' 8 8⟩, ⟨v.extractLsb' 16 8⟩, ⟨v.extractLsb' 24 8⟩]

def ofBytes (data : Bytes) : BitVec 32 :=
  (data.getD 3 0).toBitVec ++ (data.getD 2 0).toBitVec ++ (data.getD 1 0).toBitVec ++
    (data.getD 0 0).toBitVec

def be32toh (v : BitVec 32) : BitVec 32 :=
  v.extractLsb' 0 8 ++ v.extractLsb' 8 8 ++ v.extractLsb' 16 8 ++ v.extractLsb' 24 8

def htobe32 (v : BitVec 32) : BitVec 32 := be32toh v

def putInt32 (b : IoBuffer) (val : BitVec 32) : Except Fault (Int × IoBuffer) := do
  return (4, ← b.put (bytesOf (be32toh val)))

def getInt32 (b : IoBuffer) : Except Fault (BitVec 32 × IoBuffer) := do
  let (data, b) ← b.get 4
  if data.length = 4 then return (htobe32 (ofBytes data), b) else .error .assertion

def putString (b : IoBuffer) (str : Bytes) : Except Fault (Int × IoBuffer) := do
  return (toInt str.length, ← b.put str)

def getAsString (b : IoBuffer) (n : Int) : Except Fault (Bytes × IoBuffer) :=
  if n ≤ b.readableBytes then do
    let str ← load b.buf b.readerIndex (toSize n)
    return (str, ← b.seek n)
  else .error .assertion

/-! `GetInt32` undoes `PutInt32`. -/

theorem getLsbD_bytes {a b c d : BitVec 8} (i : Nat) :
    BitVec.getLsbD (a ++ b ++ c ++ d : BitVec (8 + 8 + 8 + 8)) i =
      if i < 8 then d.getLsbD i else if i < 16 then c.getLsbD (i - 8)
        else if i < 24 then b.getLsbD (i - 16) else a.getLsbD (i - 24) := by
  simp only [BitVec.getLsbD_append, Nat.sub_sub]
  grind

theorem ofBytes_bytesOf (v : BitVec 32) : ofBytes (bytesOf v) = v := by
  apply BitVec.eq_of_getLsbD_eq
  intro i inside
  simp only [ofBytes, bytesOf, List.getD_cons_succ, List.getD_cons_zero]
  rw [getLsbD_bytes]
  simp only [BitVec.getLsbD_extractLsb']
  grind

theorem be32toh_be32toh (v : BitVec 32) : be32toh (be32toh v) = v := by
  apply BitVec.eq_of_getLsbD_eq
  intro i inside
  rw [be32toh, getLsbD_bytes]
  simp only [BitVec.getLsbD_extractLsb']
  unfold be32toh
  grind [getLsbD_bytes]

theorem htobe32_wire (v : BitVec 32) (rest : Bytes) :
    htobe32 (ofBytes ((bytesOf (be32toh v) ++ rest).take 4)) = v := by
  have four : (bytesOf (be32toh v) ++ rest).take 4 = bytesOf (be32toh v) := List.take_left' rfl
  rw [four, ofBytes_bytesOf, htobe32, be32toh_be32toh]

/-! The sizes for which the constructor makes a buffer. -/

theorem construct_eq_new {n : UInt64} (fits : n.toNat + 8 < 18446744073709551616) :
    construct n = new n.toNat := by
  have sum : (n + 8).toNat = n.toNat + 8 := by
    rw [UInt64.toNat_add]
    exact Nat.mod_eq_of_lt fits
  rw [construct, new, sum]

theorem construct_layout (n : UInt64) :
    (construct n).Layout ↔ n.toNat + 8 < 18446744073709551616 := by
  constructor
  · intro h
    have inside := h.inside
    have sum : (n + 8).toNat = (n.toNat + 8) % 18446744073709551616 := UInt64.toNat_add n 8
    have bound := n.toNat_lt
    simp only [construct, kCheapPrepend, List.length_replicate, sum] at inside
    omega
  · intro fits
    rw [construct_eq_new fits]
    exact new_layout _

/-! The room that each operation needs. -/

/-- The writer stays below `2 ^ 31`, where it is or after the readable bytes have moved down. -/
def PutStays (b : IoBuffer) (n : Nat) : Prop :=
  b.writerIndex + n < 2147483648 ∨
    b.writableBytes < n ∧ n + 8 ≤ b.writableBytes + b.readerIndex ∧
      b.writableBytes + b.readerIndex < 2147483648 ∧ b.readableBytes + n + 8 < 2147483648

/-- The same for `readv`, which fills the space behind the writer first. -/
def RetrieveStays (b : IoBuffer) (n : Nat) : Prop :=
  b.writerIndex + n < 2147483648 ∨
    b.writableBytes < n ∧ n + 8 ≤ b.writableBytes + b.readerIndex ∧
      b.writerIndex + b.writableBytes < 2147483648

/-- `Shrink` adds its argument and `kCheapPrepend` to the readable bytes in `int`. -/
def ShrinkStays (b : IoBuffer) (reserve : Int) : Prop :=
  reserve + b.readableBytes + 8 < 2147483648

/-- What the two vectors of `Retrieve` can take. -/
def offered (b : IoBuffer) : Int :=
  if b.writableBytes < 65536 then b.writableBytes + 65536 else b.writableBytes

theorem put_stays {b : IoBuffer} (h : b.Layout) (data : Bytes) (stays : b.PutStays data.length) :
    ∃ c, b.put data = .ok c ∧ c.Layout ∧ c.contents = b.contents ++ data := by
  rcases stays with range | ⟨tight, wide, sum, range⟩
  · obtain ⟨c, run, layout, contents, _⟩ := put_spec h data range
    exact ⟨c, run, layout, contents⟩
  · obtain ⟨front, old, back, rfl⟩ := h.eq_parts
    have shape := (parts_layout ..).mp h
    have reader : (parts front old back).readerIndex = front.length := rfl
    rw [parts_writable, parts_readable, reader] at *
    have size : toInt data.length = data.length := toInt_small (by omega) (by omega)
    obtain ⟨back', run, enough, room, _⟩ := @makeSpace_compact front old back data.length
      shape.2.1 sum tight wide
    have eight : (front.take 8).length = 8 := by rw [List.length_take]; omega
    have short : (parts front old back).writableBytes < toInt data.length := by
      rw [parts_writable, size]
      exact tight
    have spaced : (parts front old back).ensureSpace data.length =
        .ok (parts (front.take 8) old back') := by
      rw [ensureSpace, if_pos short, run]
    refine ⟨parts (front.take 8) (old ++ data) (back'.drop data.length), ?_,
      (parts_layout ..).mpr ⟨Nat.le_of_eq eight.symm, ?_, fun _ => eight⟩, by simp⟩
    · simp only [put, spaced, ok_bind]
      exact write_parts data (by omega) enough room
    · rw [List.length_append]
      omega

theorem retrieve_stays {b : IoBuffer} (h : b.Layout) (data : Bytes) (ready : 0 ≤ b.writableBytes)
    (stays : b.RetrieveStays data.length) :
    ∃ c, b.retrieve (.bytes data) = .ok (data.length, c) ∧ c.Layout ∧
      c.contents = b.contents ++ data := by
  obtain ⟨front, old, back, rfl⟩ := h.eq_parts
  have shape := (parts_layout ..).mp h
  have reader : (parts front old back).readerIndex = front.length := rfl
  have writer : (parts front old back).writerIndex = front.length + old.length := rfl
  rw [RetrieveStays, parts_writable, reader, writer] at stays
  rw [parts_writable] at ready
  have bounds := toInt_bounds back.length
  -- the space behind the writer, as far as `int` shows it
  obtain ⟨w, space⟩ := Int.eq_ofNat_of_zero_le ready
  rw [space] at stays bounds
  have real : w ≤ back.length ∧ toInt (back.drop w).length = 0 := by
    rw [List.length_drop]
    unfold toInt at space ⊢
    omega
  have offers : Offers front old back w := by
    refine ⟨?_, Int.le_of_eq space.symm, real.1⟩
    rw [parts_writable, space, toSize_small] <;> omega
  by_cases room : data.length ≤ w
  · refine ⟨_, retrieve_inside offers (by omega) room, (parts_layout ..).mpr ⟨shape.1, ?_, ?_⟩, by simp⟩
    · rw [List.length_append]
      omega
    · intro none
      exact shape.2.2 (List.append_eq_nil_iff.mp none).1
  · have beyond := Nat.not_le.mp room
    have width : (data.take w).length = w := by
      rw [List.length_take]
      omega
    have full : (parts front (old ++ data.take w) (back.drop w)).Layout := by
      refine (parts_layout ..).mpr ⟨shape.1, ?_, ?_⟩
      · rw [List.length_append, width]
        omega
      · intro none
        exact shape.2.2 (List.append_eq_nil_iff.mp none).1
    have rest : (data.drop w).length = data.length - w := List.length_drop
    have fits : (parts front (old ++ data.take w) (back.drop w)).PutStays (data.drop w).length := by
      rw [PutStays, parts_writable, parts_readable, real.2, rest, List.length_append, width]
      simp only [parts, List.length_append, width]
      omega
    obtain ⟨c, run, layout, contents⟩ := put_stays full (data.drop w) fits
    refine ⟨c, ?_, layout, ?_⟩
    · rw [retrieve_over offers (by omega) beyond, run]
      rfl
    · rw [contents, parts_contents, parts_contents, List.append_assoc, List.take_append_drop]

theorem fresh_space {n : Nat} (short : n + 8 < 2147483648) :
    ∃ back, (new kInitialSize).ensureSpace n = .ok (parts (List.replicate 8 0) [] back) ∧
      n ≤ back.length ∧ back.length < 2147483648 := by
  have size : toInt n = n := toInt_small (by omega) (by omega)
  have initial : toInt (List.replicate kInitialSize (0 : Byte)).length = 1024 := by
    rw [List.length_replicate, kInitialSize]
    exact toInt_small (by omega) (by omega)
  rw [new_parts, ensureSpace, parts_writable, size, initial]
  by_cases small : (1024 : Int) < n
  · have grown := resize_length (List.replicate kInitialSize 0) n
    refine ⟨resize (List.replicate kInitialSize 0) n, ?_, Nat.le_of_eq grown.symm, by omega⟩
    rw [if_pos small]
    apply makeSpace_grow
    · exact Nat.le_of_eq List.length_replicate.symm
    · simp only [List.length_replicate, List.length_nil]
      omega
    · rwa [initial]
    · rw [initial, List.length_replicate]
      omega
  · refine ⟨_, if_neg small, ?_, ?_⟩
    · rw [List.length_replicate, kInitialSize]
      omega
    · rw [List.length_replicate, kInitialSize]
      omega

theorem shrink_stays {b : IoBuffer} (h : b.Layout) {reserve : Int} (low : 0 ≤ reserve)
    (stays : b.ShrinkStays reserve) :
    ∃ c, b.shrink reserve = .ok c ∧ c.Layout ∧ c.contents = b.contents ∧
      reserve ≤ c.writableBytes := by
  have len := contents_length h
  rw [ShrinkStays, ← len] at stays
  have sum : addInt reserve b.readableBytes = .ok (reserve + b.contents.length) := by
    rw [← len]
    exact addInt_ok (by omega) (by omega)
  have size : toSize (reserve + b.contents.length) = (reserve + b.contents.length).toNat :=
    toSize_small (by omega) (by omega)
  obtain ⟨back, spaced, enough, short⟩ := @fresh_space (reserve + b.contents.length).toNat (by omega)
  have eight : (List.replicate 8 (0 : Byte)).length = 8 := List.length_replicate
  have space : toInt back.length = back.length := toInt_small (by omega) (by omega)
  have width : toInt b.contents.length = b.contents.length := toInt_small (by omega) (by omega)
  have roomy : ¬ (parts (List.replicate 8 0) [] back).writableBytes < toInt b.contents.length := by
    rw [parts_writable, space, width]
    omega
  refine ⟨parts (List.replicate 8 0) b.contents (back.drop b.contents.length), ?_,
    (parts_layout ..).mpr ⟨Nat.le_of_eq eight.symm, ?_, fun _ => eight⟩, parts_contents .., ?_⟩
  · have copied : (parts (List.replicate 8 0) [] back).put b.contents =
        .ok (parts (List.replicate 8 0) b.contents (back.drop b.contents.length)) := by
      simp only [put, ensureSpace, if_neg roomy, ok_bind]
      exact write_parts b.contents (by rw [eight, List.length_nil]; omega) (by omega) (by omega)
    simp only [shrink, sum, ok_bind, size, spaced, load_contents h, append, copied]
  · omega
  · rw [parts_writable, List.length_drop, toInt_small] <;> omega

/-- Without that room the sums of `Shrink` and `makeSpace` overflow. -/
theorem shrink_overflow {b : IoBuffer} (h : b.Layout) {reserve : Int}
    (beyond : ¬ b.ShrinkStays reserve) : b.shrink reserve = .error .intOverflow := by
  have len := contents_length h
  have overflow {x y : Int} (wide : 2147483648 ≤ x + y) : addInt x y = .error .intOverflow := by
    unfold addInt
    rw [if_neg (by omega)]
  rw [ShrinkStays] at beyond
  by_cases sum : reserve + b.readableBytes < 2147483648
  · have size : toSize (reserve + b.readableBytes) = (reserve + b.readableBytes).toNat :=
      toSize_small (by omega) (by omega)
    have total : toInt (reserve + b.readableBytes).toNat = reserve + b.readableBytes := by
      rw [toInt_small] <;> omega
    have initial : toInt (List.replicate kInitialSize (0 : Byte)).length = 1024 := by
      rw [List.length_replicate, kInitialSize]
      exact toInt_small (by omega) (by omega)
    have room : addInt 1024 8 = .ok 1032 := addInt_ok (by omega) (by omega)
    have short : (new kInitialSize).writableBytes < toInt (reserve + b.readableBytes).toNat := by
      rw [new_parts, parts_writable, initial, total]
      omega
    have fails : (new kInitialSize).makeSpace (reserve + b.readableBytes).toNat =
        .error .intOverflow := by
      have need : addInt (reserve + b.readableBytes) kCheapPrepend = .error .intOverflow :=
        overflow (by simp only [kCheapPrepend]; omega)
      have space : addInt (new kInitialSize).writableBytes (new kInitialSize).prependBytes = .ok 1032 := by
        rw [new_parts, parts_writable, initial, parts_prepend, List.length_replicate]
        exact room
      simp only [makeSpace, space, ok_bind, total, need, error_bind]
    rw [shrink, addInt_ok (by omega) sum, ok_bind, size, ensureSpace, if_pos short, fails, error_bind]
  · rw [shrink, overflow (by omega), error_bind]

theorem load_take {b : IoBuffer} (h : b.Layout) {k : Nat} (inside : k ≤ b.contents.length) :
    load b.buf b.readerIndex k = .ok (b.contents.take k) := by
  obtain ⟨front, data, back, rfl⟩ := h.eq_parts
  rw [parts_contents] at inside ⊢
  have whole := load_mid front (data.take k) (data.drop k ++ back)
  rw [← List.append_assoc (data.take k), List.take_append_drop, List.length_take,
    Nat.min_eq_left inside] at whole
  exact whole

theorem get_spec {b : IoBuffer} (h : b.Layout) (size : Nat) :
    ∃ c, b.get size = .ok (b.contents.take size, c) ∧ c.Layout ∧
      c.contents = b.contents.drop size := by
  have len := contents_length h
  have range := h.range
  have prepend := h.prepend
  simp only [kCheapPrepend] at prepend
  have short : b.contents.length < 2147483648 := by
    simp only [readableBytes] at len
    omega
  by_cases none : b.readableBytes ≤ 0
  · have empty : b.contents = [] := List.length_eq_zero_iff.mp (by omega)
    refine ⟨b, ?_, h, ?_⟩
    · rw [get, if_pos none, empty, List.take_nil]
    · rw [empty, List.drop_nil]
  · have whole : toSize b.readableBytes = b.contents.length := by
      rw [← len, toSize_small] <;> omega
    have actual : (if size < b.contents.length then size else b.contents.length) =
        min size b.contents.length := by
      split <;> omega
    have inside : min size b.contents.length ≤ b.contents.length := Nat.min_le_right ..
    obtain ⟨c, sought, layout, contents, _⟩ := seek_spec h inside
    refine ⟨c, ?_, layout, ?_⟩
    · have seek : b.seek (toInt (min size b.contents.length : Nat)) = .ok c := by
        rw [toInt_small (by omega) (by omega)]
        exact sought
      simp only [get, if_neg none, whole, actual, load_take h inside, seek, ok_bind, pure_ok]
      rw [← List.take_take, List.take_length]
    · rw [contents]
      rcases Nat.le_total size b.contents.length with less | more
      · rw [Nat.min_eq_left less]
      · rw [Nat.min_eq_right more, List.drop_length, List.drop_eq_nil_iff.mpr more]

theorem getAsString_spec {b : IoBuffer} (h : b.Layout) {n : Int} (low : 0 ≤ n)
    (high : n ≤ b.readableBytes) :
    ∃ c, b.getAsString n = .ok (b.contents.take n.toNat, c) ∧ c.Layout ∧
      c.contents = b.contents.drop n.toNat := by
  have len := contents_length h
  have range := h.range
  have prepend := h.prepend
  simp only [kCheapPrepend] at prepend
  have short : n < 2147483648 := by
    simp only [readableBytes] at high
    omega
  have inside : n.toNat ≤ b.contents.length := by omega
  obtain ⟨c, sought, layout, contents, _⟩ := seek_spec h inside
  rw [Int.toNat_of_nonneg low] at sought
  refine ⟨c, ?_, layout, contents⟩
  simp only [getAsString, if_pos high, toSize_small low (by omega), load_take h inside, sought, ok_bind,
    pure_ok]

theorem getInt32_spec {b : IoBuffer} (h : b.Layout) (enough : 4 ≤ b.readableBytes) :
    ∃ c, b.getInt32 = .ok (htobe32 (ofBytes (b.contents.take 4)), c) ∧ c.Layout ∧
      c.contents = b.contents.drop 4 := by
  have len := contents_length h
  obtain ⟨c, run, layout, contents⟩ := get_spec h 4
  have four : (b.contents.take 4).length = 4 := by
    rw [List.length_take]
    omega
  refine ⟨c, ?_, layout, contents⟩
  simp only [getInt32, run, ok_bind, if_pos four, pure_ok]

end IoBuffer

open IoBuffer

inductive BufferOp where
  | put (data : Bytes)
  | append (data : Bytes)
  | seek (offset : Int)
  | get (size : Nat)
  | retrieve (data : Bytes)
  | shrink (reserve : Int)
  | reset
  | putInt32 (val : BitVec 32)
  | getInt32
  | putString (str : Bytes)
  | getAsString (n : Int)
deriving DecidableEq, Repr

/-- What a call returns. -/
inductive Answer where
  | nothing
  | bytes (data : Bytes)
  | count (n : Int)
  | int32 (val : BitVec 32)
deriving DecidableEq, Repr

namespace BufferOp

def run : BufferOp → IoBuffer → Except Fault (Answer × IoBuffer)
  | put data, b => do return (.nothing, ← b.put data)
  | append data, b => do return (.nothing, ← b.append data)
  | seek offset, b => do return (.nothing, ← b.seek offset)
  | get size, b => do
    let (data, b) ← b.get size
    return (.bytes data, b)
  | retrieve data, b => do
    let (n, b) ← b.retrieve (.bytes data)
    return (.count n, b)
  | shrink reserve, b => do return (.nothing, ← b.shrink reserve)
  | reset, b => return (.nothing, b.reset)
  | putInt32 val, b => do
    let (n, b) ← b.putInt32 val
    return (.count n, b)
  | getInt32, b => do
    let (val, b) ← b.getInt32
    return (.int32 val, b)
  | putString str, b => do
    let (n, b) ← b.putString str
    return (.count n, b)
  | getAsString n, b => do
    let (str, b) ← b.getAsString n
    return (.bytes str, b)

/-- The same call on a list of bytes. -/
def queue : BufferOp → Bytes → Answer × Bytes
  | put data, q => (.nothing, q ++ data)
  | append data, q => (.nothing, q ++ data)
  | seek offset, q => (.nothing, q.drop offset.toNat)
  | get size, q => (.bytes (q.take size), q.drop size)
  | retrieve data, q => (.count data.length, q ++ data)
  | shrink _, q => (.nothing, q)
  | reset, _ => (.nothing, [])
  | putInt32 val, q => (.count 4, q ++ bytesOf (be32toh val))
  | getInt32, q => (.int32 (htobe32 (ofBytes (q.take 4))), q.drop 4)
  | putString str, q => (.count (toInt str.length), q ++ str)
  | getAsString n, q => (.bytes (q.take n.toNat), q.drop n.toNat)

/-- What a caller may ask for. `readv` succeeds only for lengths that are not negative. -/
def Legal (b : IoBuffer) : BufferOp → Prop
  | seek offset => 0 ≤ offset ∧ offset ≤ b.readableBytes
  | retrieve data => 0 ≤ b.writableBytes ∧ data.length ≤ b.offered
  | shrink reserve => 0 ≤ reserve
  | getInt32 => 4 ≤ b.readableBytes
  | getAsString n => 0 ≤ n ∧ n ≤ b.readableBytes
  | _ => True

/-- The indices, and the sums of `Shrink`, stay below `2 ^ 31`. -/
def Stays (b : IoBuffer) : BufferOp → Prop
  | put data => b.PutStays data.length
  | append data => b.PutStays data.length
  | retrieve data => b.RetrieveStays data.length
  | shrink reserve => b.ShrinkStays reserve
  | putInt32 _ => b.PutStays 4
  | putString str => b.PutStays str.length
  | _ => True

instance legalDecidable (b : IoBuffer) : (op : BufferOp) → Decidable (op.Legal b)
  | seek _ | retrieve _ | getAsString _ => inferInstanceAs (Decidable (_ ∧ _))
  | shrink _ | getInt32 => inferInstanceAs (Decidable (_ ≤ _))
  | put _ | append _ | get _ | reset | putInt32 _ | putString _ => isTrue trivial

instance staysDecidable (b : IoBuffer) : (op : BufferOp) → Decidable (op.Stays b)
  | put _ | append _ | putInt32 _ | putString _ | retrieve _ => inferInstanceAs (Decidable (_ ∨ _))
  | shrink _ => inferInstanceAs (Decidable (_ < _))
  | seek _ | get _ | reset | getInt32 | getAsString _ => isTrue trivial

theorem run_spec {b : IoBuffer} (h : b.Layout) {op : BufferOp} (legal : op.Legal b)
    (stays : op.Stays b) : ∃ c, op.run b = .ok ((op.queue b.contents).1, c) ∧ c.Layout ∧
      c.contents = (op.queue b.contents).2 := by
  cases op with
  | put data =>
    obtain ⟨c, run, layout, contents⟩ := put_stays h data stays
    exact ⟨c, by simp only [BufferOp.run, run, ok_bind, pure_ok, queue], layout, contents⟩
  | append data =>
    obtain ⟨c, run, layout, contents⟩ := put_stays h data stays
    exact ⟨c, by simp only [BufferOp.run, IoBuffer.append, run, ok_bind, pure_ok, queue], layout,
      contents⟩
  | seek offset =>
    have len := contents_length h
    obtain ⟨low, high⟩ := legal
    obtain ⟨c, run, layout, contents, _⟩ := seek_spec (k := offset.toNat) h (by omega)
    rw [Int.toNat_of_nonneg low] at run
    exact ⟨c, by simp only [BufferOp.run, run, ok_bind, pure_ok, queue], layout, contents⟩
  | get size =>
    obtain ⟨c, run, layout, contents⟩ := get_spec h size
    exact ⟨c, by simp only [BufferOp.run, run, ok_bind, pure_ok, queue], layout, contents⟩
  | retrieve data =>
    obtain ⟨c, run, layout, contents⟩ := retrieve_stays h data legal.1 stays
    exact ⟨c, by simp only [BufferOp.run, run, ok_bind, pure_ok, queue], layout, contents⟩
  | shrink reserve =>
    obtain ⟨c, run, layout, contents, _⟩ := shrink_stays h legal stays
    exact ⟨c, by simp only [BufferOp.run, run, ok_bind, pure_ok, queue], layout, contents⟩
  | reset => exact ⟨new kInitialSize, rfl, new_layout _, new_contents _⟩
  | putInt32 val =>
    obtain ⟨c, run, layout, contents⟩ := put_stays h (bytesOf (be32toh val)) stays
    exact ⟨c, by simp only [BufferOp.run, IoBuffer.putInt32, run, ok_bind, pure_ok, queue], layout,
      contents⟩
  | getInt32 =>
    obtain ⟨c, run, layout, contents⟩ := getInt32_spec h legal
    exact ⟨c, by simp only [BufferOp.run, run, ok_bind, pure_ok, queue], layout, contents⟩
  | putString str =>
    obtain ⟨c, run, layout, contents⟩ := put_stays h str stays
    exact ⟨c, by simp only [BufferOp.run, IoBuffer.putString, run, ok_bind, pure_ok, queue], layout,
      contents⟩
  | getAsString n =>
    obtain ⟨c, run, layout, contents⟩ := getAsString_spec h legal.1 legal.2
    exact ⟨c, by simp only [BufferOp.run, run, ok_bind, pure_ok, queue], layout, contents⟩

end BufferOp

/-- Calls on any number of buffers, two of which a `Swap` exchanges. -/
inductive PoolOp where
  | call (i : Nat) (op : BufferOp)
  | swap (i j : Nat)
deriving DecidableEq, Repr

namespace PoolOp

def run : PoolOp → (Nat → IoBuffer) → Except Fault (Answer × (Nat → IoBuffer))
  | call i op, bufs => do
    let (answer, b) ← op.run (bufs i)
    return (answer, Function.update bufs i b)
  | swap i j, bufs =>
    let (a, b) := (bufs i).swap (bufs j)
    return (.nothing, Function.update (Function.update bufs i a) j b)

def queues : PoolOp → (Nat → Bytes) → Answer × (Nat → Bytes)
  | call i op, qs => ((op.queue (qs i)).1, Function.update qs i (op.queue (qs i)).2)
  | swap i j, qs => (.nothing, Function.update (Function.update qs i (qs j)) j (qs i))

/-- Every call of a run, on the buffers and on the lists. -/
def Steps (s : (Nat → IoBuffer) × (Nat → Bytes)) (op : PoolOp)
    (s' : (Nat → IoBuffer) × (Nat → Bytes)) : Prop :=
  ∃ answer, op.run s.1 = .ok (answer, s'.1) ∧ s'.2 = (op.queues s.2).2

def Legal (s : (Nat → IoBuffer) × (Nat → Bytes)) : PoolOp → Prop
  | call i op => op.Legal (s.1 i)
  | swap _ _ => True

def Stays (s : (Nat → IoBuffer) × (Nat → Bytes)) : PoolOp → Prop
  | call i op => op.Stays (s.1 i)
  | swap _ _ => True

def Allowed (s : (Nat → IoBuffer) × (Nat → Bytes)) (op : PoolOp) : Prop := op.Legal s ∧ op.Stays s

instance allowedDecidable (s : (Nat → IoBuffer) × (Nat → Bytes)) :
    (op : PoolOp) → Decidable (Allowed s op)
  | call i op => inferInstanceAs (Decidable (op.Legal (s.1 i) ∧ op.Stays (s.1 i)))
  | swap _ _ => inferInstanceAs (Decidable (True ∧ True))

def start (sizes : Nat → UInt64) : (Nat → IoBuffer) × (Nat → Bytes) :=
  (fun i => construct (sizes i), fun _ => [])

/-- Each buffer holds what its list holds. -/
def Agrees (s : (Nat → IoBuffer) × (Nat → Bytes)) : Prop :=
  ∀ i, (s.1 i).Layout ∧ (s.1 i).contents = s.2 i

theorem run_agrees {s : (Nat → IoBuffer) × (Nat → Bytes)} (h : Agrees s) {op : PoolOp}
    (allowed : Allowed s op) :
    ∃ bufs, op.run s.1 = .ok ((op.queues s.2).1, bufs) ∧ Agrees (bufs, (op.queues s.2).2) := by
  cases op with
  | call i op =>
    obtain ⟨c, run, layout, contents⟩ := BufferOp.run_spec (h i).1 allowed.1 allowed.2
    rw [(h i).2] at run contents
    refine ⟨Function.update s.1 i c, by simp only [PoolOp.run, run, ok_bind, pure_ok, queues], ?_⟩
    intro j
    by_cases same : j = i
    · subst same
      simpa only [queues, Function.update_self] using ⟨layout, contents⟩
    · simpa only [queues, Function.update_of_ne same] using h j
  | swap i j =>
    refine ⟨_, rfl, ?_⟩
    intro k
    by_cases last : k = j
    · subst last
      simpa only [queues, Function.update_self, IoBuffer.swap] using h i
    · by_cases first : k = i
      · subst first
        simpa only [queues, Function.update_of_ne last, Function.update_self, IoBuffer.swap] using h j
      · simpa only [queues, Function.update_of_ne last, Function.update_of_ne first] using h k

theorem Agrees.step {s s' : (Nat → IoBuffer) × (Nat → Bytes)} (h : Agrees s) {op : PoolOp}
    (allowed : Allowed s op) (steps : Steps s op s') : Agrees s' := by
  obtain ⟨answer, run, same⟩ := steps
  obtain ⟨bufs, run', agrees⟩ := run_agrees h allowed
  cases run'.symm.trans run
  rw [← same] at agrees
  exact agrees

theorem start_agrees {sizes : Nat → UInt64}
    (short : ∀ i, (sizes i).toNat + 8 < 18446744073709551616) : Agrees (start sizes) := by
  intro i
  refine ⟨(construct_layout _).mpr (short i), ?_⟩
  change (construct (sizes i)).contents = []
  rw [construct_eq_new (short i), new_contents]

/-- In every run of calls that keep the indices and the sums of `Shrink` below `2 ^ 31`, on buffers of
every size that a `size_t` holds together with the prepend area: the buffers and the lists agree, no
call faults, each returns what the list says, and after `Shrink` there is the room that was asked
for. -/
theorem byte_fifo (sizes : Nat → UInt64) (short : ∀ i, (sizes i).toNat + 8 < 18446744073709551616)
    (s : (Nat → IoBuffer) × (Nat → Bytes))
    (run : Transition.Reaches Steps Allowed (start sizes) s) :
    (∀ i, kCheapPrepend ≤ (s.1 i).readerIndex ∧ (s.1 i).readerIndex ≤ (s.1 i).writerIndex ∧
      (s.1 i).writerIndex ≤ (s.1 i).buf.length ∧ (s.1 i).contents = s.2 i) ∧
    (∀ op, Allowed s op → ∃ bufs, op.run s.1 = .ok ((op.queues s.2).1, bufs) ∧
      ∀ i reserve, op = .call i (.shrink reserve) →
        (bufs i).contents = (s.1 i).contents ∧ reserve ≤ (bufs i).writableBytes) ∧
    ∀ i val rest, s.2 i = bytesOf (be32toh val) ++ rest →
      ∃ bufs, (PoolOp.call i .getInt32).run s.1 = .ok (.int32 val, bufs) := by
  have agrees : Agrees s := run.invariant (start_agrees short) fun _ _ _ h allowed taken =>
    h.step allowed taken
  refine ⟨?_, ?_, ?_⟩
  · intro i
    exact ⟨(agrees i).1.prepend, (agrees i).1.order, (agrees i).1.inside, (agrees i).2⟩
  · intro op allowed
    obtain ⟨bufs, run, after⟩ := run_agrees agrees allowed
    refine ⟨bufs, run, ?_⟩
    rintro i reserve rfl
    obtain ⟨c, shrunk, _, contents, room⟩ := shrink_stays (agrees i).1 allowed.1 allowed.2
    have here : bufs = Function.update s.1 i c := by
      simp only [PoolOp.run, BufferOp.run, shrunk, ok_bind, pure_ok, Except.ok.injEq,
        Prod.mk.injEq] at run
      exact run.2.symm
    rw [here, Function.update_self]
    exact ⟨contents, room⟩
  · intro i val rest front
    have four : 4 ≤ (s.1 i).readableBytes := by
      rw [← contents_length (agrees i).1, (agrees i).2, front, List.length_append]
      have size : (bytesOf (be32toh val)).length = 4 := rfl
      omega
    have allowed : Allowed s (.call i .getInt32) := ⟨four, trivial⟩
    obtain ⟨bufs, run, _⟩ := run_agrees agrees allowed
    refine ⟨bufs, ?_⟩
    rw [run]
    simp only [queues, BufferOp.queue, front, htobe32_wire]

/-- The call that there is, if it is allowed and does not fault. -/
def next (s : (Nat → IoBuffer) × (Nat → Bytes)) (op : PoolOp) :
    Option ((Nat → IoBuffer) × (Nat → Bytes)) :=
  if Allowed s op then (op.run s.1).toOption.map fun r => (r.2, (op.queues s.2).2) else none

theorem reaches_next {s s' : (Nat → IoBuffer) × (Nat → Bytes)} (ops : List PoolOp)
    (run : ops.foldlM next s = some s') : Transition.Reaches Steps Allowed s s' := by
  refine (Transition.Runs.of_function next (fun s op s' taken => ?_) ops run).reaches
  rw [next] at taken
  split at taken
  · rename_i allowed
    obtain ⟨r, done, same⟩ := Option.map_eq_some_iff.mp taken
    cases same
    exact ⟨allowed, r.1, toOption_eq_some.mp done, rfl⟩
  · cases taken

/-- The second `Put` moves the readable bytes down, the third makes the vector longer, and the number
behind them is got again from another buffer. -/
theorem byte_fifo_int32 : ∃ s bufs, Transition.Reaches Steps Allowed (start fun _ => 16) s ∧
    (s.1 1).contents = bytesOf (be32toh 70000#32) ++ List.replicate 30 7 ∧
    (s.1 0).contents = [1, 2] ∧
    (PoolOp.call 1 .getInt32).run s.1 = .ok (.int32 70000#32, bufs) := by
  have short (_ : Nat) : (16 : UInt64).toNat + 8 < 18446744073709551616 := by decide
  let ops : List PoolOp := [.call 0 (.put (List.replicate 14 5)), .call 0 (.get 12),
    .call 0 (.put (List.replicate 10 6)), .call 0 (.get 12), .call 0 (.putInt32 70000#32),
    .call 0 (.put (List.replicate 30 7)), .call 0 (.shrink 5), .swap 0 1, .call 0 (.retrieve [1, 2])]
  have ends : (ops.foldlM next (start fun _ => 16)).any (fun s =>
      s.2 1 = bytesOf (be32toh 70000#32) ++ List.replicate 30 7 ∧ s.2 0 = [1, 2]) = true := by
    decide +kernel
  obtain ⟨s, run, holds⟩ := (Option.any_eq_true _ _).mp ends
  obtain ⟨one, zero⟩ := of_decide_eq_true holds
  have run := reaches_next ops run
  obtain ⟨agree, _, gets⟩ := byte_fifo _ short s run
  obtain ⟨bufs, got⟩ := gets 1 70000#32 _ one
  exact ⟨s, bufs, run, (agree 1).2.2.2.trans one, (agree 0).2.2.2.trans zero, got⟩

/-- A `Shrink` whose reserve and prepend area do not fit an `int`; and the largest `size_t`, whose
vector is smaller than the prepend area. -/
theorem shrink_wide :
    Legal (start fun _ => 1024) (.call 0 (.shrink 2147483640)) ∧
    (PoolOp.call 0 (.shrink 2147483640)).run (start fun _ => 1024).1 = .error .intOverflow ∧
    ¬ (construct 18446744073709551615).writerIndex ≤ (construct 18446744073709551615).buf.length := by
  have short (_ : Nat) : (1024 : UInt64).toNat + 8 < 18446744073709551616 := by decide
  have wide : ¬ ((start fun _ => 1024).1 0).ShrinkStays 2147483640 := by
    rw [ShrinkStays]
    decide
  refine ⟨Int.le_of_lt (by decide : (0 : Int) < 2147483640), ?_, by decide⟩
  rw [PoolOp.run, BufferOp.run, shrink_overflow (start_agrees short 0).1 wide, error_bind, error_bind]

end PoolOp

end Yamq
