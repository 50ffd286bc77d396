import Yamq.Machine
import Yamq.Lib.PairSearch

/-! `rpc/io_buffer.h` and `rpc/io_buffer.cpp`: a vector of bytes with a reader and a writer index.
The indices are `int`s and every comparison converts between them and `size_t` as the source does,
so a buffer beyond the range of `int` shows the wrap. -/
namespace Yamq

structure IoBuffer where
  /-- `_buf`; its length is `_buf.size()` -/
  buf : Bytes
  readerIndex : Int
  writerIndex : Int
deriving DecidableEq, Repr

namespace IoBuffer

def kInitialSize : Nat := 1024
def kCheapPrepend : Int := 8

def new (initialSize : Nat) : IoBuffer :=
  ⟨List.replicate (initialSize + 8) 0, kCheapPrepend, kCheapPrepend⟩

def writableBytes (b : IoBuffer) : Int := toInt (b.buf.length - b.writerIndex)
def prependBytes (b : IoBuffer) : Int := b.readerIndex
def readableBytes (b : IoBuffer) : Int := b.writerIndex - b.readerIndex

/-- `n` bytes from position `i` of the vector. -/
def load (buf : Bytes) (i : Int) (n : Nat) : Except Fault Bytes :=
  if 0 ≤ i ∧ i + n ≤ buf.length then .ok ((buf.drop i.toNat).take n) else .error .outOfBounds

/-- `data` copied over the vector from position `i`. -/
def store (buf : Bytes) (i : Int) (data : Bytes) : Except Fault Bytes :=
  if 0 ≤ i ∧ i + data.length ≤ buf.length then
    .ok (buf.take i.toNat ++ data ++ buf.drop (i.toNat + data.length))
  else .error .outOfBounds

/-- `std::vector::resize`. -/
def resize (buf : Bytes) (n : Nat) : Bytes := buf.take n ++ List.replicate (n - buf.length) 0

def wseek (b : IoBuffer) (offset : Int) : Except Fault IoBuffer :=
  if offset ≤ b.writableBytes then do
    return { b with writerIndex := ← addInt b.writerIndex offset }
  else .error .assertion

def compact (b : IoBuffer) : Except Fault IoBuffer :=
  if kCheapPrepend < b.readerIndex then do
    let readable ← load b.buf b.readerIndex (toSize b.readableBytes)
    let buf ← store b.buf kCheapPrepend readable
    return ⟨buf, kCheapPrepend, kCheapPrepend + toSize b.readableBytes⟩
  else .error .assertion

def makeSpace (b : IoBuffer) (n : Nat) : Except Fault IoBuffer := do
  let room ← addInt b.writableBytes b.prependBytes
  let need ← addInt (toInt n) kCheapPrepend
  if room < need then
    return { b with buf := resize b.buf (toSize (b.writerIndex + n)) }
  else b.compact

/-- The test that `Put` and `Shrink` make before `makeSpace`. -/
def ensureSpace (b : IoBuffer) (n : Nat) : Except Fault IoBuffer :=
  if b.writableBytes < toInt n then b.makeSpace n else .ok b

def put (b : IoBuffer) (data : Bytes) : Except Fault IoBuffer := do
  let b ← b.ensureSpace data.length
  let buf ← store b.buf b.writerIndex data
  { b with buf := buf }.wseek (toInt data.length)

def append (b : IoBuffer) (data : Bytes) : Except Fault IoBuffer := b.put data

def seek (b : IoBuffer) (offset : Int) : Except Fault IoBuffer :=
  if offset ≤ b.readableBytes then
    if offset < b.readableBytes then do
      return { b with readerIndex := ← addInt b.readerIndex offset }
    else .ok { b with readerIndex := kCheapPrepend, writerIndex := kCheapPrepend }
  else .error .assertion

/-- `Seek` in a build with `NDEBUG`, where nothing is asserted. -/
def seekNdebug (b : IoBuffer) (offset : Int) : Except Fault IoBuffer :=
  if offset < b.readableBytes then do
    return { b with readerIndex := ← addInt b.readerIndex offset }
  else .ok { b with readerIndex := kCheapPrepend, writerIndex := kCheapPrepend }

theorem seek_ndebug {b b' : IoBuffer} {offset : Int} (run : b.seek offset = .ok b') :
    b.seekNdebug offset = .ok b' := by
  unfold seek at run
  split at run
  · exact run
  · cases run

/-- What `findCRLF` scans: it starts at `Peek()` and ends `_writer_index` bytes further on, so it
covers `_reader_index` bytes behind the writer. -/
def window (b : IoBuffer) : Bytes := (b.buf.drop b.readerIndex.toNat).take b.writerIndex.toNat

/-- `findCRLF`: the scan reads byte by byte and leaves the vector only when no pair came before
its end. The result is a position in the vector, `none` is NULL. -/
def findCRLF (b : IoBuffer) : Except Fault (Option Int) :=
  match PairSearch.findPair CR LF b.window with
  | some i => .ok (some (b.readerIndex + i))
  | none =>
    if b.readerIndex + b.writerIndex ≤ b.buf.length then .ok none else .error .outOfBounds

def getUntil (b : IoBuffer) (end_ : Int) : Except Fault IoBuffer :=
  b.seek (toInt (end_ - b.readerIndex))

def getUntilNdebug (b : IoBuffer) (end_ : Int) : Except Fault IoBuffer :=
  b.seekNdebug (toInt (end_ - b.readerIndex))

/-- `Get`: what was copied out and the buffer behind it. -/
def get (b : IoBuffer) (size : Nat) : Except Fault (Bytes × IoBuffer) :=
  if b.readableBytes ≤ 0 then .ok ([], b)
  else do
    let actual := if size < toSize b.readableBytes then size else toSize b.readableBytes
    let data ← load b.buf b.readerIndex actual
    return (data, ← b.seek (toInt actual))

/-- What `readv` reports: the bytes it delivered, or a failure. -/
inductive ReadResult where
  | bytes (data : Bytes)
  | error

/-- `Retrieve`: `readv` fills the space behind the writer first and `extrabuf` after it. -/
def retrieve (b : IoBuffer) : ReadResult → Except Fault (Nat × IoBuffer)
  | .error => .error .abort
  | .bytes data => do
    let writeable := toSize b.writableBytes
    let buf ← store b.buf b.writerIndex (data.take writeable)
    let b := { b with buf := buf }
    if data.length ≤ writeable then
      return (data.length, ← b.wseek (toInt data.length))
    else
      let b ← b.wseek (toInt writeable)
      return (data.length, ← b.put (data.drop writeable))

def swap (a b : IoBuffer) : IoBuffer × IoBuffer := (b, a)

def shrink (b : IoBuffer) (reserve : Int) : Except Fault IoBuffer := do
  let reserve ← addInt reserve b.readableBytes
  let fresh ← (new kInitialSize).ensureSpace (toSize reserve)
  fresh.append (← load b.buf b.readerIndex (toSize b.readableBytes))

def reset (_ : IoBuffer) : IoBuffer := new kInitialSize

/-- The bytes written and not yet consumed. -/
def contents (b : IoBuffer) : Bytes :=
  (b.buf.drop b.readerIndex.toNat).take b.readableBytes.toNat

/-- Where the indices of a buffer stand between two calls. -/
structure Layout (b : IoBuffer) : Prop where
  prepend : kCheapPrepend ≤ b.readerIndex
  order : b.readerIndex ≤ b.writerIndex
  inside : b.writerIndex ≤ b.buf.length
  range : b.writerIndex < 2147483648
  /-- an empty buffer has been reset -/
  empty : b.readerIndex = b.writerIndex → b.readerIndex = kCheapPrepend

/-! The vector seen in three parts: what was consumed, what is readable, the space behind. -/

theorem load_mid (front data back : Bytes) :
    load (front ++ (data ++ back)) front.length data.length = .ok data := by
  rw [load, if_pos ⟨by omega, by simp only [List.length_append]; omega⟩]
  simp

theorem store_mid (front back data : Bytes) (room : data.length ≤ back.length) :
    store (front ++ back) front.length data = .ok (front ++ (data ++ back.drop data.length)) := by
  rw [store, if_pos ⟨by omega, by simp; omega⟩]
  simp [List.drop_append]

theorem store_end (front back data : Bytes) (full : back.length < data.length) :
    store (front ++ back) front.length data = .error .outOfBounds := by
  rw [store, if_neg]
  simp; omega

def parts (front data back : Bytes) : IoBuffer :=
  ⟨front ++ (data ++ back), front.length, front.length + data.length⟩

section
variable (front data back : Bytes)

@[simp] theorem parts_contents : (parts front data back).contents = data := by
  have size : (parts front data back).readableBytes.toNat = data.length := by
    simp only [parts, readableBytes]
    omega
  rw [contents, size, parts, Int.toNat_natCast, List.drop_left, List.take_left]

@[simp] theorem parts_readable : (parts front data back).readableBytes = data.length := by
  simp only [parts, readableBytes]
  omega

@[simp] theorem parts_prepend : (parts front data back).prependBytes = front.length := rfl

@[simp] theorem parts_writable : (parts front data back).writableBytes = toInt back.length := by
  simp only [parts, writableBytes, List.length_append]
  congr 1
  omega

theorem parts_layout : (parts front data back).Layout ↔
    8 ≤ front.length ∧ front.length + data.length < 2147483648 ∧ (data = [] → front.length = 8) := by
  constructor
  · intro h
    have := h.prepend; have := h.range
    simp only [parts, kCheapPrepend] at *
    refine ⟨by omega, by omega, fun none => ?_⟩
    have := h.empty (by simp [none])
    simp only [kCheapPrepend] at this
    omega
  · rintro ⟨prepend, range, empty⟩
    constructor <;> simp only [parts, kCheapPrepend, List.length_append] <;> try omega
    intro none
    have := empty (List.length_eq_zero_iff.mp (by omega))
    omega
end

theorem Layout.eq_parts {b : IoBuffer} (h : b.Layout) :
    ∃ front data back, b = parts front data back := by
  have := h.prepend; have := h.order; have := h.inside
  obtain ⟨buf, reader, writer⟩ := b
  simp only [kCheapPrepend] at *
  refine ⟨buf.take reader.toNat, (buf.take writer.toNat).drop reader.toNat,
    buf.drop writer.toNat, ?_⟩
  simp only [parts, mk.injEq, List.length_take, List.length_drop]
  refine ⟨?_, by omega, by omega⟩
  have front : (buf.take writer.toNat).take reader.toNat = buf.take reader.toNat := by
    rw [List.take_take, Nat.min_eq_left (by omega)]
  rw [← List.append_assoc, ← front, List.take_append_drop, List.take_append_drop]

theorem new_parts (n : Nat) : new n = parts (List.replicate 8 0) [] (List.replicate n 0) := by
  simp only [new, parts, List.nil_append, Nat.add_comm n 8, List.replicate_add]
  rfl

theorem new_layout (n : Nat) : (new n).Layout := by
  rw [new_parts, parts_layout]
  simp

theorem new_contents (n : Nat) : (new n).contents = [] := by
  rw [new_parts, parts_contents]

theorem contents_length {b : IoBuffer} (h : b.Layout) :
    (b.contents.length : Int) = b.readableBytes := by
  obtain ⟨front, data, back, rfl⟩ := h.eq_parts
  simp

/-! What each operation does to the three parts. -/

theorem compact_parts {front data back : Bytes} (range : front.length + data.length < 2147483648)
    (advanced : 8 < front.length) :
    ∃ back', (parts front data back).compact = .ok (parts (front.take 8) data back') ∧
      back'.length + 8 = back.length + front.length := by
  refine ⟨(front ++ (data ++ back)).drop (8 + data.length), ?_, by simp; omega⟩
  have size : toSize data.length = data.length := by rw [toSize_small] <;> omega
  have eight : (front.take 8).length = 8 := by rw [List.length_take]; omega
  have into := store_mid (front.take 8) (front.drop 8 ++ (data ++ back)) data
    (by simp only [List.length_append]; omega)
  have rest : (front.drop 8 ++ (data ++ back)).drop data.length =
      (front ++ (data ++ back)).drop (8 + data.length) := by
    rw [← List.drop_drop, List.drop_append_of_le_length (Nat.le_of_lt advanced)]
  rw [← List.append_assoc, List.take_append_drop, eight, rest] at into
  have start : kCheapPrepend < (parts front data back).readerIndex := by
    simp only [kCheapPrepend, parts]; omega
  have from_ : load (parts front data back).buf (parts front data back).readerIndex data.length =
      .ok data := load_mid front data back
  have into : store (parts front data back).buf kCheapPrepend data = _ := into
  simp only [compact, if_pos start, parts_readable, size, from_, into, ok_bind, pure_ok]
  simp [parts, kCheapPrepend, eight]

theorem write_parts {front data back : Bytes} (new : Bytes)
    (range : front.length + data.length + new.length < 2147483648) (room : new.length ≤ back.length)
    (offered : (new.length : Int) ≤ toInt back.length) :
    (do let buf ← store (parts front data back).buf (parts front data back).writerIndex new
        { parts front data back with buf := buf }.wseek (toInt new.length)) =
      .ok (parts front (data ++ new) (back.drop new.length)) := by
  have into := store_mid (front ++ data) back new room
  rw [List.append_assoc, List.append_assoc, List.length_append, Int.natCast_add] at into
  have into : store (parts front data back).buf (parts front data back).writerIndex new = _ := into
  have size : toInt new.length = new.length := toInt_small (by omega) (by omega)
  have sum := addInt_ok (a := front.length + data.length) (b := new.length) (by omega) (by omega)
  have left : (front ++ (data ++ (new ++ back.drop new.length))).length =
      front.length + data.length + back.length := by
    simp only [List.length_append, List.length_drop]; omega
  rw [into, ok_bind]
  simp only [wseek, writableBytes, parts, left, size]
  have space : ((front.length + data.length + back.length : Nat) : Int) -
      (front.length + data.length) = back.length := by omega
  rw [space, if_pos offered, sum, ok_bind, pure_ok]
  simp [Int.add_assoc]

theorem resize_length (buf : Bytes) (n : Nat) : (resize buf n).length = n := by
  simp only [resize, List.length_append, List.length_take, List.length_replicate]
  omega

theorem resize_parts (front data back : Bytes) (n : Nat) :
    resize (front ++ (data ++ back)) (front.length + data.length + n) =
      front ++ (data ++ resize back n) := by
  have more : front.length + data.length + n - (front ++ (data ++ back)).length =
      n - back.length := by
    simp only [List.length_append]; omega
  have all : (front ++ data).length ≤ front.length + data.length + n := by simp
  have rest : front.length + data.length + n - (front ++ data).length = n := by simp
  simp only [resize, more]
  rw [← List.append_assoc, List.take_append, List.take_of_length_le all, rest]
  simp

/-- The growing branch of `makeSpace`: the vector ends where the new bytes will end. -/
theorem makeSpace_grow {front data back : Bytes} {n : Nat} (prepend : 8 ≤ front.length)
    (range : front.length + data.length + n < 2147483648) (tight : toInt back.length < n)
    (narrow : toInt back.length + front.length < n + 8) :
    (parts front data back).makeSpace n = .ok (parts front data (resize back n)) := by
  have bounds := toInt_bounds back.length
  have room := addInt_ok (a := toInt back.length) (b := front.length) (by omega) (by omega)
  have need := addInt_ok (a := n) (b := kCheapPrepend) (by simp only [kCheapPrepend]; omega)
    (by simp only [kCheapPrepend]; omega)
  have size : toInt n = n := toInt_small (by omega) (by omega)
  have target : toSize ((parts front data back).writerIndex + n) =
      front.length + data.length + n := by
    rw [toSize_small] <;> simp only [parts] <;> omega
  simp only [makeSpace, parts_writable, parts_prepend, room, size, need, ok_bind, target]
  rw [if_pos (by simpa only [kCheapPrepend] using narrow), pure_ok]
  simp only [parts, resize_parts]

/-- The other branch: the readable bytes move down and leave enough room. -/
theorem makeSpace_compact {front data back : Bytes} {n : Nat}
    (range : front.length + data.length < 2147483648)
    (sum : toInt back.length + front.length < 2147483648) (tight : toInt back.length < n)
    (wide : n + 8 ≤ toInt back.length + front.length) :
    ∃ back', (parts front data back).makeSpace n = .ok (parts (front.take 8) data back') ∧
      n ≤ back'.length ∧ (n : Int) ≤ toInt back'.length ∧
      back'.length + 8 = back.length + front.length := by
  have bounds := toInt_bounds back.length
  have room := addInt_ok (a := toInt back.length) (b := front.length) (by omega) sum
  have need := addInt_ok (a := n) (b := kCheapPrepend) (by simp only [kCheapPrepend]; omega)
    (by simp only [kCheapPrepend]; omega)
  have size : toInt n = n := toInt_small (by omega) (by omega)
  obtain ⟨back', run, len⟩ := @compact_parts front data back range (by omega)
  refine ⟨back', ?_, ?_, ?_, len⟩
  · simp only [makeSpace, parts_writable, parts_prepend, room, size, need, ok_bind]
    rw [if_neg (by simp only [kCheapPrepend]; omega), run]
  · unfold toInt at wide; omega
  · unfold toInt at *; omega

/-- A `Put` that keeps the writer within `int` appends, whatever the size of the vector. -/
theorem put_parts {front data back : Bytes} (h : (parts front data back).Layout) (new : Bytes)
    (range : front.length + data.length + new.length < 2147483648) :
    ∃ front' back', (parts front data back).put new = .ok (parts front' (data ++ new) back') ∧
      8 ≤ front'.length ∧ front'.length ≤ front.length := by
  have prepend := ((parts_layout ..).mp h).1
  have size : toInt new.length = new.length := toInt_small (by omega) (by omega)
  by_cases room : toInt back.length < new.length
  · have tight : (parts front data back).writableBytes < toInt new.length := by
      rwa [parts_writable, size]
    by_cases narrow : toInt back.length + front.length < new.length + 8
    · refine ⟨front, (resize back new.length).drop new.length, ?_, prepend, Nat.le_refl _⟩
      have grown := resize_length back new.length
      simp only [put, ensureSpace, if_pos tight, makeSpace_grow prepend range room narrow, ok_bind]
      exact write_parts new range (by omega) (Int.le_of_eq (by rw [grown, size]))
    · obtain ⟨back', run, fits, offered, _⟩ := @makeSpace_compact front data back new.length
        (by omega) (by omega) room (by omega)
      have eight : (front.take 8).length = 8 := by rw [List.length_take]; omega
      refine ⟨front.take 8, back'.drop new.length, ?_, by omega, by omega⟩
      simp only [put, ensureSpace, if_pos tight, run, ok_bind]
      exact write_parts new (by omega) fits offered
  · have roomy : ¬ (parts front data back).writableBytes < toInt new.length := by
      rwa [parts_writable, size]
    refine ⟨front, back.drop new.length, ?_, prepend, Nat.le_refl _⟩
    simp only [put, ensureSpace, if_neg roomy, ok_bind]
    exact write_parts new range (by unfold toInt at room; omega) (by omega)

theorem seek_parts {front data back : Bytes} (h : (parts front data back).Layout)
    {k : Nat} (inside : k < data.length) :
    (parts front data back).seek k = .ok (parts (front ++ data.take k) (data.drop k) back) := by
  have range := ((parts_layout ..).mp h).2.1
  have sum := addInt_ok (a := front.length) (b := k) (by omega) (by omega)
  simp only [seek, parts_readable]
  rw [if_pos (by omega), if_pos (by omega)]
  simp only [parts, sum, ok_bind, pure_ok, List.length_append, List.length_take, List.length_drop,
    List.append_assoc]
  rw [← List.append_assoc (data.take k), List.take_append_drop]
  congr 2 <;> omega

/-- A `Seek` over all of them starts the buffer afresh; the bytes stay in the vector. -/
theorem seek_all (front data back : Bytes) :
    (parts front data back).seek data.length =
      .ok ⟨front ++ (data ++ back), kCheapPrepend, kCheapPrepend⟩ := by
  simp only [seek, parts_readable]
  rw [if_pos (Int.le_refl _), if_neg (Int.lt_irrefl _)]
  rfl

theorem seek_beyond {b : IoBuffer} {offset : Int} (beyond : b.readableBytes < offset) :
    b.seek offset = .error .assertion := if_neg (Int.not_le.mpr beyond)

/-! The same facts without the parts, as the callers use them. -/

theorem put_spec {b : IoBuffer} (h : b.Layout) (new : Bytes)
    (range : b.writerIndex + new.length < 2147483648) :
    ∃ b', b.put new = .ok b' ∧ b'.Layout ∧ b'.contents = b.contents ++ new ∧
      b'.writerIndex ≤ b.writerIndex + new.length := by
  obtain ⟨front, data, back, rfl⟩ := h.eq_parts
  have shape := (parts_layout ..).mp h
  obtain ⟨front', back', run, low, high⟩ := put_parts h new (by simp only [parts] at range; omega)
  refine ⟨_, run, (parts_layout ..).mpr ⟨low, ?_, ?_⟩, by simp, ?_⟩
  · simp only [parts] at range
    simp only [List.length_append]; omega
  · intro none
    have := shape.2.2 (List.append_eq_nil_iff.mp none).1
    omega
  · simp only [parts, List.length_append]; omega

theorem seek_spec {b : IoBuffer} (h : b.Layout) {k : Nat} (inside : k ≤ b.contents.length) :
    ∃ b', b.seek k = .ok b' ∧ b'.Layout ∧ b'.contents = b.contents.drop k ∧
      b'.writerIndex ≤ b.writerIndex := by
  obtain ⟨front, data, back, rfl⟩ := h.eq_parts
  have shape := (parts_layout ..).mp h
  rw [parts_contents] at inside
  rcases Nat.lt_or_eq_of_le inside with short | rfl
  · refine ⟨_, seek_parts h short, (parts_layout ..).mpr ⟨?_, ?_, ?_⟩, by simp, ?_⟩
    · simp; omega
    · simp; omega
    · intro none
      exact absurd (List.drop_eq_nil_iff.mp none) (by omega)
    · simp [parts]; omega
  · have none : (⟨front ++ (data ++ back), kCheapPrepend, kCheapPrepend⟩ : IoBuffer).contents = [] := by
      simp [contents, readableBytes]
    refine ⟨_, seek_all .., ?_, by rw [none, parts_contents, List.drop_length], ?_⟩
    · constructor <;> simp [kCheapPrepend]; omega
    · simp only [parts, kCheapPrepend]; omega

theorem seek_zero {b : IoBuffer} (h : b.Layout) : b.seek 0 = .ok b := by
  have := h.prepend; have := h.order; have := h.range
  unfold seek readableBytes
  simp only [kCheapPrepend] at *
  by_cases none : b.readerIndex = b.writerIndex
  · have start := h.empty none
    rw [if_pos (by omega), if_neg (by omega)]
    obtain ⟨buf, reader, writer⟩ := b
    simp only [kCheapPrepend] at none start
    rw [← none, start]
  · rw [if_pos (by omega), if_pos (by omega), addInt_ok (by omega) (by omega), Int.add_zero]
    rfl

theorem seek_seek {b c d : IoBuffer} (h : b.Layout) {j k : Nat} (inside : j + k ≤ b.contents.length)
    (first : b.seek j = .ok c) (second : c.seek k = .ok d) : b.seek (j + k : Nat) = .ok d := by
  obtain ⟨front, data, back, rfl⟩ := h.eq_parts
  rw [parts_contents] at inside
  rcases Nat.lt_or_ge j data.length with short | all
  · cases (seek_parts h short).symm.trans first
    have layout : (parts (front ++ data.take j) (data.drop j) back).Layout := by
      obtain ⟨c, same, layout, _⟩ := seek_spec h (k := j) (by rw [parts_contents]; omega)
      cases (seek_parts h short).symm.trans same
      exact layout
    have vector : front ++ data.take j ++ (data.drop j ++ back) = front ++ (data ++ back) := by
      rw [List.append_assoc, ← List.append_assoc (data.take j), List.take_append_drop]
    rcases Nat.lt_or_eq_of_le inside with less | whole
    · cases (seek_parts layout (k := k) (by simp; omega)).symm.trans second
      rw [seek_parts h less, List.drop_drop, List.append_assoc, List.take_add]
    · have rest : k = (data.drop j).length := by simp; omega
      rw [rest, seek_all, vector] at second
      cases second
      rw [whole, seek_all]
  · have zero : k = 0 := by omega
    subst zero
    have same : j = data.length := by omega
    subst same
    cases (seek_all ..).symm.trans first
    rw [Nat.add_zero, seek_all]
    have empty : (⟨front ++ (data ++ back), kCheapPrepend, kCheapPrepend⟩ : IoBuffer).Layout := by
      obtain ⟨c, same, layout, _⟩ := seek_spec h (k := data.length) (by simp)
      cases (seek_all ..).symm.trans same
      exact layout
    exact (seek_zero empty).symm.trans second

/-! `findCRLF` is right about the readable bytes that hold a pair, and says nothing reliable
about the others. -/

theorem window_parts (front data back : Bytes) :
    (parts front data back).window = (data ++ back).take (front.length + data.length) := by
  have size : ((front.length : Int) + data.length).toNat = front.length + data.length := by omega
  simp [window, parts, size]

theorem findCRLF_line {b : IoBuffer} (h : b.Layout) {line rest : Bytes}
    (clean : PairSearch.NoPair CR LF line) (starts : b.contents = line ++ CR :: LF :: rest) :
    b.findCRLF = .ok (some (b.readerIndex + line.length)) := by
  obtain ⟨front, data, back, rfl⟩ := h.eq_parts
  rw [parts_contents] at starts
  subst starts
  obtain ⟨tail, cut⟩ : ∃ tail, (parts front (line ++ CR :: LF :: rest) back).window =
      line ++ CR :: LF :: tail := by
    rw [window_parts]
    refine ⟨(rest ++ back).take (front.length + rest.length), ?_⟩
    have long : front.length + (line ++ CR :: LF :: rest).length =
        line.length + (front.length + rest.length + 2) := by
      simp only [List.length_append, List.length_cons]; omega
    rw [long, List.append_assoc, List.take_length_add_append]
    rfl
  rw [findCRLF, cut, PairSearch.findPair_line CR_ne_LF clean]

/-- Behind the readable bytes the scan stays in the vector and meets no pair. -/
def Unambiguous (b : IoBuffer) : Prop :=
  b.readerIndex + b.writerIndex ≤ b.buf.length ∧ PairSearch.NoPair CR LF b.window

theorem findCRLF_none {b : IoBuffer} : b.findCRLF = .ok none ↔ b.Unambiguous := by
  rw [findCRLF, Unambiguous, ← PairSearch.findPair_none]
  split
  · rename_i p hit
    simp [hit]
  · rename_i miss
    split <;> simp_all

instance (b : IoBuffer) : Decidable b.Unambiguous := decidable_of_iff _ findCRLF_none

/-- Without a whole line to read, a scan that does not return NULL faults or returns a position
whose pair ends behind the writer. -/
theorem findCRLF_stale {b : IoBuffer} (h : b.Layout)
    (open_line : PairSearch.NoPair CR LF b.contents) (stale : ¬ b.Unambiguous) :
    b.findCRLF = .error .outOfBounds ∨
      ∃ p, b.findCRLF = .ok (some p) ∧ b.readerIndex ≤ p ∧ b.writerIndex < p + 2 ∧
        p + 2 ≤ b.readerIndex + b.writerIndex := by
  have neither := fun none => stale (findCRLF_none.mp none)
  rw [findCRLF] at neither ⊢
  split
  · rename_i i hit
    have at_i := ((PairSearch.findPair_some ..).mp hit).1
    have width : i + 1 < b.writerIndex.toNat := by
      have bound := PairSearch.pairAt_bound at_i
      simp only [window, List.length_take] at bound
      omega
    refine .inr ⟨_, rfl, by omega, ?_, by omega⟩
    obtain ⟨front, data, back, rfl⟩ := h.eq_parts
    rw [parts_contents] at open_line
    rw [window_parts] at at_i
    by_contra inside
    simp only [parts] at inside
    have bound : i + 1 < data.length := by omega
    apply open_line i
    rw [← PairSearch.pairAt_append_left bound back]
    simpa [PairSearch.PairAt, List.getElem?_take, show i < front.length + data.length by omega,
      show i + 1 < front.length + data.length by omega] using at_i
  · rename_i miss
    simp only [miss] at neither
    split
    · rename_i fits
      simp [fits] at neither
    · exact .inl rfl

/-- The bytes a caller of the buffer offers at once fit an `int`. -/
def FitsInt (data : Bytes) : Prop := data.length < 2147483648

instance (data : Bytes) : Decidable (FitsInt data) :=
  inferInstanceAs (Decidable (data.length < 2147483648))

/-- The buffers that the operations lead to. -/
inductive Reachable : IoBuffer → Prop where
  | new (initialSize : Nat) : Reachable (new initialSize)
  | put {b b' : IoBuffer} (data : Bytes) : Reachable b → FitsInt data → b.put data = .ok b' →
      Reachable b'
  | seek {b b' : IoBuffer} (offset : Int) : Reachable b → 0 ≤ offset →
      offset ≤ b.readableBytes → b.seek offset = .ok b' → Reachable b'
  | get {b b' : IoBuffer} {data : Bytes} (size : Nat) : Reachable b →
      b.get size = .ok (data, b') → Reachable b'
  | retrieve {b b' : IoBuffer} {n : Nat} (data : Bytes) : Reachable b → 0 ≤ b.writableBytes →
      data.length ≤ b.writableBytes + 65536 → b.retrieve (.bytes data) = .ok (n, b') →
      Reachable b'
  | shrink {b b' : IoBuffer} (reserve : Int) : Reachable b → 0 ≤ reserve →
      b.shrink reserve = .ok b' → Reachable b'
  | swap {b c : IoBuffer} : Reachable b → Reachable c → Reachable (b.swap c).1
  | reset {b : IoBuffer} : Reachable b → Reachable b.reset

/-! What a call that returns has done to the indices and to the size, for any values of them. -/

theorem store_size {buf buf' data : Bytes} {i : Int} (stored : store buf i data = .ok buf') :
    0 ≤ i ∧ i + data.length ≤ buf.length ∧ buf'.length = buf.length := by
  unfold store at stored
  split at stored
  · rename_i inside
    cases stored
    refine ⟨inside.1, inside.2, ?_⟩
    simp only [List.length_append, List.length_take, List.length_drop]
    omega
  · cases stored

theorem load_size {buf data : Bytes} {i : Int} {n : Nat} (loaded : load buf i n = .ok data) :
    i + n ≤ buf.length ∧ data.length = n := by
  unfold load at loaded
  split at loaded
  · rename_i inside
    cases loaded
    refine ⟨inside.2, ?_⟩
    simp only [List.length_take, List.length_drop]
    omega
  · cases loaded

theorem compact_indices {b d : IoBuffer} (run : b.compact = .ok d) :
    8 < b.readerIndex ∧ d.readerIndex = 8 ∧ d.writerIndex = 8 + toSize b.readableBytes ∧
      d.buf.length = b.buf.length := by
  unfold compact at run
  split at run
  · rename_i advanced
    obtain ⟨readable, loaded, run⟩ := bind_eq_ok.mp run
    obtain ⟨buf, stored, run⟩ := bind_eq_ok.mp run
    cases run
    exact ⟨advanced, rfl, rfl, (store_size stored).2.2⟩
  · cases run

/-- `ensureSpace` leaves the buffer alone, grows the vector or moves the readable bytes down. -/
theorem ensureSpace_cases {b d : IoBuffer} {n : Nat} (run : b.ensureSpace n = .ok d) :
    (toInt n ≤ b.writableBytes ∧ d = b) ∨
    (b.writableBytes < toInt n ∧ b.writableBytes + b.readerIndex < toInt n + 8 ∧
      d = { b with buf := resize b.buf (toSize (b.writerIndex + n)) }) ∨
    (b.writableBytes < toInt n ∧ toInt n + 8 ≤ b.writableBytes + b.readerIndex ∧
      b.writableBytes + b.readerIndex < 2147483648 ∧ b.compact = .ok d) := by
  unfold ensureSpace at run
  split at run
  · rename_i tight
    obtain ⟨room, hroom, run⟩ := bind_eq_ok.mp run
    obtain ⟨need, hneed, run⟩ := bind_eq_ok.mp run
    rw [addInt_eq_ok] at hroom hneed
    simp only [prependBytes, kCheapPrepend] at hroom hneed
    split at run
    · cases run
      exact .inr (.inl ⟨tight, by omega, rfl⟩)
    · exact .inr (.inr ⟨tight, by omega, by omega, run⟩)
  · rename_i roomy
    cases run
    exact .inl ⟨by omega, rfl⟩

theorem ensureSpace_layout {b c : IoBuffer} (h : b.Layout) {n : Nat} (small : n < 2147483648)
    (run : b.ensureSpace n = .ok c) : c.Layout := by
  have prepend := h.prepend; have order := h.order; have inside := h.inside; have range := h.range
  simp only [kCheapPrepend] at prepend
  rcases ensureSpace_cases run with ⟨_, rfl⟩ | ⟨_, _, rfl⟩ | ⟨_, _, _, moved⟩
  · exact h
  · have target : (toSize (b.writerIndex + n) : Int) = b.writerIndex + n := by
      rw [toSize_small] <;> omega
    refine ⟨h.prepend, order, ?_, range, h.empty⟩
    dsimp only
    rw [resize_length, target]
    omega
  · obtain ⟨advanced, reader, writer, same⟩ := compact_indices moved
    have size : (toSize b.readableBytes : Int) = b.writerIndex - b.readerIndex := by
      rw [toSize_small] <;> simp only [readableBytes] <;> omega
    exact ⟨by rw [reader]; decide, by omega, by omega, by omega, fun _ => reader⟩

theorem wseek_eq_ok {b c : IoBuffer} {k : Int} : b.wseek k = .ok c ↔
    k ≤ b.writableBytes ∧ -2147483648 ≤ b.writerIndex + k ∧ b.writerIndex + k < 2147483648 ∧
      c = { b with writerIndex := b.writerIndex + k } := by
  unfold wseek
  split
  · rename_i offered
    simp only [bind_eq_ok, addInt_eq_ok, pure_ok, Except.ok.injEq, offered, true_and]
    constructor
    · rintro ⟨w, ⟨rfl, low, high⟩, rfl⟩
      exact ⟨low, high, rfl⟩
    · rintro ⟨low, high, rfl⟩
      exact ⟨_, ⟨rfl, low, high⟩, rfl⟩
  · rename_i refused
    simp [refused]

/-- Storing behind the writer and moving it over some of the new bytes. -/
theorem wseek_layout {b c : IoBuffer} (h : b.Layout) {data buf : Bytes} {k : Nat}
    (some_ : k ≤ data.length) (stored : store b.buf b.writerIndex data = .ok buf)
    (run : { b with buf := buf }.wseek k = .ok c) : c.Layout := by
  have := h.prepend; have := h.order; have := h.inside; have := h.range
  unfold store at stored
  split at stored
  · rename_i fits
    cases stored
    obtain ⟨_, _, high, rfl⟩ := wseek_eq_ok.mp run
    constructor <;> simp only [List.length_append, List.length_take, List.length_drop] at *
    · assumption
    · omega
    · omega
    · omega
    · intro none
      exact h.empty (by omega)
  · cases stored

theorem put_layout {b c : IoBuffer} (h : b.Layout) {data : Bytes} (small : FitsInt data)
    (run : b.put data = .ok c) : c.Layout := by
  simp only [put, bind_eq_ok] at run
  obtain ⟨d, spaced, buf, stored, run⟩ := run
  have layout := ensureSpace_layout h small spaced
  have short : data.length < 2147483648 := small
  rw [toInt_small (by omega) (by omega)] at run
  exact wseek_layout layout (Nat.le_refl _) stored run

theorem ensureSpace_reader {b d : IoBuffer} {n : Nat} (spaced : b.ensureSpace n = .ok d) :
    d.readerIndex = b.readerIndex ∨ d.readerIndex = kCheapPrepend := by
  rcases ensureSpace_cases spaced with ⟨_, rfl⟩ | ⟨_, _, rfl⟩ | ⟨_, _, _, moved⟩
  · exact .inl rfl
  · exact .inl rfl
  · exact .inr (compact_indices moved).2.1

/-- A `Put` that returns has kept the writer within `int`, whatever it was given. -/
theorem put_bounds {b c : IoBuffer} {data : Bytes} (run : b.put data = .ok c) :
    c.writerIndex < 2147483648 ∧
      (c.readerIndex = b.readerIndex ∨ c.readerIndex = kCheapPrepend) := by
  simp only [put, bind_eq_ok] at run
  obtain ⟨d, spaced, buf, _, run⟩ := run
  have same := ensureSpace_reader spaced
  obtain ⟨_, _, high, rfl⟩ := wseek_eq_ok.mp run
  exact ⟨high, same⟩

theorem Reachable.layout {b : IoBuffer} (reach : b.Reachable) : b.Layout := by
  induction reach with
  | new n => exact new_layout n
  | put data _ small run ih => exact put_layout ih small run
  | @seek b b' offset _ low high run ih =>
    have len := contents_length ih
    obtain ⟨c, same, layout, _⟩ := seek_spec ih (k := offset.toNat) (by omega)
    rw [Int.toNat_of_nonneg low, run] at same
    cases same
    exact layout
  | @get b b' data size _ run ih =>
    have len := contents_length ih
    have range := ih.range; have prepend := ih.prepend
    simp only [kCheapPrepend] at prepend
    unfold IoBuffer.get at run
    split at run
    · cases run; exact ih
    · simp only [bind_eq_ok] at run
      obtain ⟨_, _, c, run, last⟩ := run
      cases last
      have whole : toSize b.readableBytes = b.contents.length := by
        rw [← len, toSize_small] <;> simp only [readableBytes] at len <;> omega
      have short : (if size < toSize b.readableBytes then size else toSize b.readableBytes) ≤
          b.contents.length := by
        rw [whole]; split <;> omega
      obtain ⟨c, same, layout, _⟩ := seek_spec ih short
      rw [toInt_small (by omega) (by simp only [readableBytes] at len; omega), same] at run
      cases run
      exact layout
  | @retrieve b b' n data _ offered bound run ih =>
    have top := toInt_bounds (b.buf.length - b.writerIndex)
    have size : toSize b.writableBytes = b.writableBytes.toNat :=
      toSize_small offered (by unfold writableBytes; omega)
    have upper : b.writableBytes < 2147483648 := top.2
    simp only [IoBuffer.retrieve, size, bind_eq_ok] at run
    obtain ⟨buf, stored, run⟩ := run
    split at run
    · rename_i direct
      obtain ⟨c, run, last⟩ := bind_eq_ok.mp run
      cases last
      rw [List.take_of_length_le direct] at stored
      rw [toInt_small (by omega) (by omega)] at run
      exact wseek_layout ih (Nat.le_refl _) stored run
    · rename_i spill
      simp only [bind_eq_ok] at run
      obtain ⟨c, direct, d, extra, last⟩ := run
      cases last
      rw [toInt_small (by omega) (by omega)] at direct
      have layout := wseek_layout ih (by simp; omega) stored direct
      exact put_layout layout (by simp only [FitsInt, List.length_drop]; omega) extra
  | @shrink b b' reserve _ low run ih =>
    have len := contents_length ih
    have range := ih.range; have prepend := ih.prepend; have order := ih.order
    simp only [kCheapPrepend] at prepend
    simp only [IoBuffer.shrink, bind_eq_ok] at run
    obtain ⟨total, sum, fresh, spaced, data, loaded, run⟩ := run
    rw [addInt_eq_ok] at sum
    have nonneg : 0 ≤ total := by simp only [readableBytes] at sum; omega
    have layout := ensureSpace_layout (new_layout _) (by rw [toSize_small] <;> omega) spaced
    have short : FitsInt data := by
      unfold load at loaded
      split at loaded
      · cases loaded
        have size : toSize b.readableBytes = b.readableBytes.toNat := by
          rw [toSize_small] <;> simp only [readableBytes] <;> omega
        simp only [FitsInt, List.length_take, List.length_drop, size]
        simp only [readableBytes]
        omega
      · cases loaded
    exact put_layout layout short run
  | swap _ _ _ ih => exact ih
  | reset _ _ => exact new_layout _

end IoBuffer
end Yamq
