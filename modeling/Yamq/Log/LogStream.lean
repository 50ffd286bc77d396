import Yamq.Log.DoubleText

/-! `log/logstream.h` and `log/logstream.cpp`: a buffer of fixed size and the items that are written to
it. Each byte is stored through a check of the bounds. -/
namespace Yamq.Stream

def kMaxLogMessageLen : Nat := 3000
def maxNumericSize : Nat := 32

/-- The memory of the buffer, and `_cur` as a position in it. -/
structure FixedBuffer where
  data : Bytes
  cur : Nat
deriving DecidableEq, Repr

def poke (data : Bytes) (p : Nat) (c : Byte) : Except Fault Bytes :=
  if p < data.length then .ok (data.set p c) else .error .outOfBounds

def memcpy (data : Bytes) (p : Nat) (source : Bytes) : Except Fault Bytes :=
  if p + source.length ≤ data.length then
    .ok (data.take p ++ (source ++ data.drop (p + source.length)))
  else .error .outOfBounds

/-- `std::reverse`. -/
def reverse (data : Bytes) (first last : Nat) : Bytes :=
  data.take first ++ (((data.drop first).take (last - first)).reverse ++ data.drop last)

namespace FixedBuffer

/-- The constructor leaves `_data` as the memory was. -/
def new {bufsize : Nat} (memory : Fin bufsize → Byte) : FixedBuffer := ⟨List.ofFn memory, 0⟩

def length (b : FixedBuffer) : Nat := b.cur
def remain (b : FixedBuffer) : Nat := toSize (b.data.length - b.cur)
def offset (b : FixedBuffer) (off : Nat) : FixedBuffer := { b with cur := b.cur + off }

/-- The bytes from `data()` on, `length()` of them. -/
def contents (b : FixedBuffer) : Bytes := b.data.take b.length

def append (b : FixedBuffer) (buf : Bytes) : Except Fault (Bool × FixedBuffer) :=
  if b.remain < buf.length then .ok (false, b)
  else do
    let data ← memcpy b.data b.cur buf
    return (true, { b with data := data }.offset buf.length)

end FixedBuffer

def digits : Bytes := ascii "9876543210123456789"

/-- `zero[lsd]`, where `zero` points to the middle of `digits`. -/
def zero (lsd : Int) : Except Fault Byte :=
  if 0 ≤ 9 + lsd then
    match digits[(9 + lsd).toNat]? with
    | some c => .ok c
    | none => .error .outOfBounds
  else .error .outOfBounds

def digitsHex : Bytes := ascii "0123456789ABCDEF"

def hex (lsd : Int) : Except Fault Byte :=
  match digitsHex[lsd.toNat]? with
  | some c => .ok c
  | none => .error .outOfBounds

/-- The loop of `convert` and `convertHex`: the digits, the lowest one first. -/
def convertLoop (base : Nat) (digit : Int → Except Fault Byte) :
    Nat → Bytes → Nat → Int → Except Fault (Bytes × Nat)
  | 0, _, _, _ => .error .endless
  | fuel + 1, data, p, i => do
    let data ← poke data p (← digit (i.tmod base))
    if i.tdiv base ≠ 0 then convertLoop base digit fuel data (p + 1) (i.tdiv base)
    else return (data, p + 1)

/-- The sign goes behind the digits. -/
def storeSign (data : Bytes) (p : Nat) (value : Int) : Except Fault (Bytes × Nat) :=
  if value < 0 then do return (← poke data p 45, p + 1) else .ok (data, p)

def convert (data : Bytes) (buf : Nat) (value : Int) : Except Fault (Bytes × Nat) := do
  let (data, p) ← convertLoop 10 zero (value.natAbs + 1) data buf value
  let (data, p) ← storeSign data p value
  let data ← poke data p 0
  return (reverse data buf p, p - buf)

def convertHex (data : Bytes) (buf : Nat) (value : UInt64) : Except Fault (Bytes × Nat) := do
  let (data, p) ← convertLoop 16 hex (value.toNat + 1) data buf value.toNat
  let data ← poke data p 0
  return (reverse data buf p, p - buf)

/-- `snprintf` stores at most `len` bytes, with the NUL. -/
def snprintf (data : Bytes) (buf len : Nat) (text : Bytes) : Except Fault Bytes :=
  if len = 0 then .ok data else memcpy data buf (text.take (len - 1) ++ [0])

/-- What `operator<<` takes. A C string is given by its bytes before the NUL. -/
inductive Item where
  | bool (v : Bool)
  | short (v : Int16)
  | unsignedShort (v : UInt16)
  | int (v : Int32)
  | unsignedInt (v : UInt32)
  | long (v : Int64)
  | unsignedLong (v : UInt64)
  | longLong (v : Int64)
  | unsignedLongLong (v : UInt64)
  | pointer (p : UInt64)
  | float (v : Single)
  | double (v : Double)
  | char (v : Byte)
  | unsignedChars (str : Option Bytes)
  | chars (str : Option Bytes)
  | string (str : Bytes)
  | buffer (contents : Bytes)
deriving DecidableEq, Repr

namespace FixedBuffer

def copy2buf (b : FixedBuffer) (v : Int) : Except Fault FixedBuffer :=
  if maxNumericSize ≤ b.remain then do
    let (data, len) ← convert b.data b.cur v
    return { b with data := data }.offset len
  else .ok b

def appendPointer (b : FixedBuffer) (p : UInt64) : Except Fault FixedBuffer :=
  if maxNumericSize + 2 < b.remain then do
    let (_, b) ← b.append (ascii "0x")
    let (data, len) ← convertHex b.data b.cur p
    return { b with data := data }.offset len
  else .ok b

def appendDouble (b : FixedBuffer) (v : Double) : Except Fault FixedBuffer :=
  if maxNumericSize ≤ b.remain then do
    let data ← snprintf b.data b.cur maxNumericSize (doubleText v)
    return { b with data := data }.offset (doubleText v).length
  else .ok b

/-- `operator<<`. -/
def insert (b : FixedBuffer) : Item → Except Fault FixedBuffer
  | .bool v => do return (← b.append (ascii (if v then "1" else "0"))).2
  | .short v => b.copy2buf v.toInt
  | .unsignedShort v => b.copy2buf v.toNat
  | .int v => b.copy2buf v.toInt
  | .unsignedInt v => b.copy2buf v.toNat
  | .long v => b.copy2buf v.toInt
  | .unsignedLong v => b.copy2buf v.toNat
  | .longLong v => b.copy2buf v.toInt
  | .unsignedLongLong v => b.copy2buf v.toNat
  | .pointer p => b.appendPointer p
  | .float v => b.appendDouble v.toDouble
  | .double v => b.appendDouble v
  | .char v => do return (← b.append [v]).2
  | .unsignedChars str => do return (← b.append (str.getD (ascii "(null)"))).2
  | .chars str => do return (← b.append (str.getD (ascii "(null)"))).2
  | .string str => do return (← b.append str).2
  | .buffer contents => do return (← b.append contents).2

end FixedBuffer

/-! What a stream is for: each item stands for a text, and takes its text or nothing. -/

def decimalText (v : Int) : Bytes :=
  if v < 0 then 45 :: ascii (toString v.natAbs) else ascii (toString v.natAbs)

def hexText (p : Nat) : Bytes := (Nat.toDigits 16 p).map fun c => c.toUpper.toNat.toUInt8

def Item.text : Item → Bytes
  | .bool v => ascii (if v then "1" else "0")
  | .short v => decimalText v.toInt
  | .unsignedShort v => decimalText v.toNat
  | .int v => decimalText v.toInt
  | .unsignedInt v => decimalText v.toNat
  | .long v => decimalText v.toInt
  | .unsignedLong v => decimalText v.toNat
  | .longLong v => decimalText v.toInt
  | .unsignedLongLong v => decimalText v.toNat
  | .pointer p => ascii "0x" ++ hexText p.toNat
  | .float v => doubleText v.toDouble
  | .double v => doubleText v
  | .char v => [v]
  | .unsignedChars str => str.getD (ascii "(null)")
  | .chars str => str.getD (ascii "(null)")
  | .string str => str
  | .buffer contents => contents

/-- The space that an item asks for. -/
def Item.room : Item → Nat
  | .short _ | .unsignedShort _ | .int _ | .unsignedInt _ | .long _ | .unsignedLong _ | .longLong _
  | .unsignedLongLong _ | .float _ | .double _ => maxNumericSize
  | .pointer _ => maxNumericSize + 3
  | .bool _ | .char _ => 1
  | .unsignedChars str => (Item.unsignedChars str).text.length
  | .chars str => (Item.chars str).text.length
  | .string str => str.length
  | .buffer contents => contents.length

/-- The items that find the space they ask for, with so many bytes filled before. -/
def taken : Nat → List Item → List Item
  | _, [] => []
  | filled, item :: items =>
    if filled + item.room ≤ kMaxLogMessageLen then item :: taken (filled + item.text.length) items
    else taken filled items

def textOf (items : List Item) : Bytes := items.flatMap Item.text

theorem taken_sublist (items : List Item) (filled : Nat) : (taken filled items).Sublist items := by
  induction items generalizing filled with
  | nil => exact .slnil
  | cons item items ih =>
    unfold taken
    split
    · exact (ih _).cons_cons item
    · exact (ih _).cons item

/-! What the two `convert`s store. -/

theorem poke_mid (front back : Bytes) (x c : Byte) :
    poke (front ++ x :: back) front.length c = .ok (front ++ c :: back) := by
  rw [poke, if_pos (by simp), List.set_append_right _ _ (Nat.le_refl _), Nat.sub_self,
    List.set_cons_zero]

theorem memcpy_behind (front back source : Bytes) (room : source.length ≤ back.length) :
    memcpy (front ++ back) front.length source = .ok (front ++ (source ++ back.drop source.length)) := by
  have inside : front.length + source.length ≤ (front ++ back).length := by
    rw [List.length_append]
    omega
  have behind : (front ++ back).drop (front.length + source.length) = back.drop source.length := by
    rw [← List.drop_drop, List.drop_left]
  rw [memcpy, if_pos inside, List.take_left, behind]

theorem zero_digit (i : Int) :
    zero (i.tmod (10 : Nat)) = .ok (Nat.digitChar (i.natAbs % 10)).toNat.toUInt8 := by
  have small : (i.tmod (10 : Nat)).natAbs = i.natAbs % 10 := Int.natAbs_tmod i 10
  have table : ∀ k : Nat, k < 10 → zero (-k) = .ok (Nat.digitChar k).toNat.toUInt8 ∧
      zero k = .ok (Nat.digitChar k).toNat.toUInt8 := by
    decide +kernel
  rw [← small]
  obtain ⟨below, above⟩ := table (i.tmod (10 : Nat)).natAbs (by omega)
  rcases Int.natAbs_eq (i.tmod (10 : Nat)) with same | same
  · rw [← same] at above
    exact above
  · rw [← same] at below
    exact below

theorem hex_digit (i : Int) (unsigned : 0 ≤ i) :
    hex (i.tmod (16 : Nat)) = .ok (Nat.digitChar (i.natAbs % 16)).toUpper.toNat.toUInt8 := by
  have table : ∀ k : Nat, k < 16 → hex k = .ok (Nat.digitChar k).toUpper.toNat.toUInt8 := by
    decide +kernel
  obtain ⟨n, rfl⟩ := Int.eq_ofNat_of_zero_le unsigned
  exact table (n % 16) (Nat.mod_lt n (by decide))

/-- The loop stores the digits from the lowest on, and leaves the rest alone. The numbers that it meets
are `good`: any for `convert`, none below zero for `convertHex`. -/
theorem convertLoop_spec (base : Nat) (big : 1 < base) (digit : Int → Except Fault Byte)
    (text : Char → Byte) (good : Int → Prop) (smaller : ∀ i, good i → good (i.tdiv base))
    (agrees : ∀ i, good i → digit (i.tmod base) = .ok (text (Nat.digitChar (i.natAbs % base))))
    (fuel : Nat) (front back : Bytes) (i : Int) (fine : good i) (enough : i.natAbs < fuel)
    (room : (Nat.toDigits base i.natAbs).length ≤ back.length) :
    convertLoop base digit fuel (front ++ back) front.length i =
      .ok (front ++ (((Nat.toDigits base i.natAbs).map text).reverse ++
        back.drop (Nat.toDigits base i.natAbs).length),
        front.length + (Nat.toDigits base i.natAbs).length) := by
  induction fuel generalizing front back i with
  | zero => exact absurd enough (Nat.not_lt_zero _)
  | succ fuel ih =>
    have quotient : (i.tdiv base).natAbs = i.natAbs / base := Int.natAbs_tdiv i base
    have digits := Nat.toDigits_eq_if (n := i.natAbs) big
    cases back with
    | nil =>
      have some_ : 0 < (Nat.toDigits base i.natAbs).length := Nat.length_toDigits_pos
      exact absurd room (Nat.not_le.mpr some_)
    | cons x back =>
      rw [convertLoop, agrees i fine, ok_bind, poke_mid, ok_bind]
      by_cases last : i.natAbs < base
      · have stops : i.tdiv base = 0 := by
          rw [← Int.natAbs_eq_zero, quotient, Nat.div_eq_of_lt last]
        rw [if_pos last] at digits
        rw [if_neg (not_not.mpr stops), digits, Nat.mod_eq_of_lt last]
        rfl
      · have goes : i.tdiv base ≠ 0 := by
          rw [← Int.natAbs_ne_zero, quotient]
          exact Nat.ne_of_gt (Nat.div_pos (Nat.not_lt.mp last) (by omega))
        have less : i.natAbs / base < i.natAbs := Nat.div_lt_self (by omega) big
        rw [if_neg last] at digits
        rw [digits, List.length_append, List.length_singleton] at room
        have rest := ih (front ++ [text (Nat.digitChar (i.natAbs % base))]) back (i.tdiv base)
          (smaller i fine) (by omega)
          (by rw [quotient]; exact Nat.le_of_succ_le_succ room)
        rw [if_pos goes, digits]
        rw [quotient, List.append_assoc, List.length_append, List.length_singleton] at rest
        rw [List.singleton_append] at rest
        rw [rest]
        simp [Nat.add_assoc, Nat.add_comm 1]

theorem reverse_mid (front mid back : Bytes) :
    reverse (front ++ (mid ++ back)) front.length (front.length + mid.length) =
      front ++ (mid.reverse ++ back) := by
  have behind : (front ++ (mid ++ back)).drop (front.length + mid.length) = back := by
    rw [← List.append_assoc, ← List.length_append, List.drop_left]
  rw [reverse, List.take_left, List.drop_left, Nat.add_sub_cancel_left, List.take_left, behind]

/-- The end of both functions: the NUL, and the digits the other way round. -/
theorem terminate_spec (front low back : Bytes) (x : Byte) :
    (do let data ← poke (front ++ (low ++ x :: back)) (front.length + low.length) 0
        return (reverse data front.length (front.length + low.length),
          front.length + low.length - front.length) : Except Fault (Bytes × Nat)) =
      .ok (front ++ (low.reverse ++ 0 :: back), low.reverse.length) := by
  have stored := poke_mid (front ++ low) back x 0
  rw [List.append_assoc, List.append_assoc, List.length_append] at stored
  rw [stored, ok_bind, pure_ok, reverse_mid, Nat.add_sub_cancel_left, List.length_reverse]

theorem decimal_bytes (n : Nat) :
    (Nat.toDigits 10 n).map (fun c => c.toNat.toUInt8) = ascii (toString n) := by
  rw [ascii, toString_toList]

/-- `convert` stores the text of the number and a NUL behind it. -/
theorem convert_spec (front back : Bytes) (v : Int) (room : (decimalText v).length < back.length) :
    convert (front ++ back) front.length v = .ok (front ++ (decimalText v ++
      0 :: back.drop ((decimalText v).length + 1)), (decimalText v).length) := by
  have width : (Nat.toDigits 10 v.natAbs).length = (ascii (toString v.natAbs)).length := by
    rw [← decimal_bytes, List.length_map]
  have digits : (ascii (toString v.natAbs)).length ≤ (decimalText v).length := by
    unfold decimalText
    split
    · exact Nat.le_succ _
    · exact Nat.le_refl _
  have loop := convertLoop_spec 10 (by decide) zero (fun c => c.toNat.toUInt8) (fun _ => True)
    (fun _ _ => trivial) (fun i _ => zero_digit i) (v.natAbs + 1) front back v trivial
    (Nat.lt_succ_self _) (by rw [width]; omega)
  rw [decimal_bytes, width] at loop
  simp only [convert, loop, ok_bind]
  by_cases negative : v < 0
  · have text : decimalText v = 45 :: ascii (toString v.natAbs) := if_pos negative
    rw [text] at room ⊢
    rw [List.length_cons] at room ⊢
    obtain ⟨x, y, rest, left⟩ :
        ∃ x y rest, back.drop (ascii (toString v.natAbs)).length = x :: y :: rest := by
      have long : 2 ≤ (back.drop (ascii (toString v.natAbs)).length).length := by
        rw [List.length_drop]
        omega
      match back.drop (ascii (toString v.natAbs)).length, long with
      | x :: y :: rest, _ => exact ⟨x, y, rest, rfl⟩
    have behind : back.drop ((ascii (toString v.natAbs)).length + 1 + 1) = rest := by
      rw [Nat.add_assoc, ← List.drop_drop, left]
      rfl
    have sign := poke_mid (front ++ (ascii (toString v.natAbs)).reverse) (y :: rest) x 45
    rw [List.append_assoc, List.append_assoc, List.length_append, List.length_reverse] at sign
    have ends := terminate_spec front ((ascii (toString v.natAbs)).reverse ++ [45]) rest y
    rw [List.reverse_append, List.reverse_reverse, List.length_append, List.length_reverse,
      List.append_assoc] at ends
    simp only [storeSign, negative, if_true, left, sign, ok_bind, pure_ok, behind]
    exact ends
  · have text : decimalText v = ascii (toString v.natAbs) := if_neg negative
    rw [text] at room ⊢
    obtain ⟨x, rest, left⟩ : ∃ x rest, back.drop (ascii (toString v.natAbs)).length = x :: rest :=
      List.exists_cons_of_ne_nil (List.ne_nil_of_length_pos (by rw [List.length_drop]; omega))
    have behind : back.drop ((ascii (toString v.natAbs)).length + 1) = rest := by
      rw [← List.drop_drop, left, List.drop_one, List.tail_cons]
    have ends := terminate_spec front (ascii (toString v.natAbs)).reverse rest x
    rw [List.reverse_reverse, List.length_reverse] at ends
    simp only [storeSign, negative, if_false, left, ok_bind, behind]
    exact ends

theorem hexText_stored (front back : Bytes) (n : Nat) (room : (hexText n).length < back.length) :
    (do let (data, p) ← convertLoop 16 hex (n + 1) (front ++ back) front.length n
        let data ← poke data p 0
        return (reverse data front.length p, p - front.length) : Except Fault (Bytes × Nat)) =
      .ok (front ++ (hexText n ++ 0 :: back.drop ((hexText n).length + 1)), (hexText n).length) := by
  have width : (Nat.toDigits 16 n).length = (hexText n).length := (List.length_map ..).symm
  have loop := convertLoop_spec 16 (by decide) hex (fun c => c.toUpper.toNat.toUInt8) (fun i => 0 ≤ i)
    (fun i low => Int.tdiv_nonneg low (by decide)) hex_digit (n + 1) front back n
    (Int.natCast_nonneg _) (Nat.lt_succ_self _) (by rw [Int.natAbs_natCast, width]; omega)
  rw [Int.natAbs_natCast, width] at loop
  obtain ⟨x, rest, left⟩ : ∃ x rest, back.drop (hexText n).length = x :: rest :=
    List.exists_cons_of_ne_nil (List.ne_nil_of_length_pos (by rw [List.length_drop]; omega))
  have behind : back.drop ((hexText n).length + 1) = rest := by
    rw [← List.drop_drop, left, List.drop_one, List.tail_cons]
  have ends := terminate_spec front (hexText n).reverse rest x
  rw [List.reverse_reverse, List.length_reverse] at ends
  simp only [loop, ok_bind, left, behind]
  exact ends

theorem convertHex_spec (front back : Bytes) (p : UInt64)
    (room : (hexText p.toNat).length < back.length) :
    convertHex (front ++ back) front.length p = .ok (front ++ (hexText p.toNat ++
      0 :: back.drop ((hexText p.toNat).length + 1)), (hexText p.toNat).length) :=
  hexText_stored front back p.toNat room

/-! How long the texts of numbers get. -/

theorem decimalText_length (v : Int) (small : v.natAbs < 100000000000000000000) :
    (decimalText v).length ≤ 21 := by
  have digits : (ascii (toString v.natAbs)).length ≤ 20 := (digits_length (by decide)).mpr small
  unfold decimalText
  split
  · exact Nat.succ_le_succ digits
  · exact Nat.le_succ_of_le digits

theorem hexText_length {n : Nat} (small : n < 2 ^ 64) : (hexText n).length ≤ 16 := by
  rw [hexText, List.length_map]
  exact (Nat.length_toDigits_le_iff (by decide) (by decide)).mpr small

/-! What an insertion does to the text that the buffer holds. -/

namespace FixedBuffer

/-- The buffer holds this text, and space up to its size behind it. -/
def Holds (b : FixedBuffer) (text : Bytes) : Prop :=
  ∃ back, b = ⟨text ++ back, text.length⟩ ∧ text.length + back.length = kMaxLogMessageLen

variable {b : FixedBuffer} {held : Bytes}

theorem Holds.contents (h : b.Holds held) : b.contents = held := by
  obtain ⟨back, rfl, _⟩ := h
  exact List.take_left

theorem Holds.remain (h : b.Holds held) : held.length + b.remain = kMaxLogMessageLen := by
  obtain ⟨back, rfl, size⟩ := h
  have left : FixedBuffer.remain ⟨held ++ back, held.length⟩ = back.length := by
    simp only [kMaxLogMessageLen] at size
    rw [FixedBuffer.remain, toSize_small] <;> simp only [List.length_append] <;> omega
  rw [left, size]

theorem new_holds (memory : Fin kMaxLogMessageLen → Byte) : (new memory).Holds [] := by
  refine ⟨List.ofFn memory, ?_, ?_⟩
  · rw [List.nil_append, List.length_nil, new]
  · rw [List.length_nil, Nat.zero_add, List.length_ofFn]

/-- `append` takes all of the bytes or none. -/
theorem Holds.append (h : b.Holds held) (buf : Bytes) : ∃ c,
    b.append buf = .ok (decide (held.length + buf.length ≤ kMaxLogMessageLen), c) ∧
      c.Holds (held ++ if held.length + buf.length ≤ kMaxLogMessageLen then buf else []) := by
  have space := h.remain
  by_cases fits : held.length + buf.length ≤ kMaxLogMessageLen
  · obtain ⟨back, rfl, size⟩ := h
    have room : buf.length ≤ back.length := by omega
    refine ⟨⟨held ++ (buf ++ back.drop buf.length), held.length + buf.length⟩, ?_,
      back.drop buf.length, ?_, ?_⟩
    · rw [FixedBuffer.append, if_neg (by omega), memcpy_behind held back buf room, ok_bind,
        decide_eq_true fits]
      rfl
    · rw [if_pos fits, List.append_assoc, List.length_append]
    · rw [if_pos fits, List.length_append, List.length_drop]
      omega
  · refine ⟨b, ?_, ?_⟩
    · rw [FixedBuffer.append, if_pos (by omega), decide_eq_false fits]
    · rw [if_neg fits, List.append_nil]
      exact h

/-- What the `convert`s leave, with the cursor moved behind the text. -/
theorem holds_converted {back text : Bytes} (size : held.length + back.length = kMaxLogMessageLen)
    (room : text.length < back.length) :
    Holds ⟨held ++ (text ++ 0 :: back.drop (text.length + 1)), held.length + text.length⟩
      (held ++ text) := by
  refine ⟨0 :: back.drop (text.length + 1), by rw [List.append_assoc, List.length_append], ?_⟩
  rw [List.length_append, List.length_cons, List.length_drop]
  omega

theorem Holds.copy2buf (h : b.Holds held) (v : Int) (small : v.natAbs < 100000000000000000000) : ∃ c,
    b.copy2buf v = .ok c ∧ c.Holds (held ++
      if held.length + maxNumericSize ≤ kMaxLogMessageLen then decimalText v else []) := by
  have space := h.remain
  have short := decimalText_length v small
  by_cases fits : held.length + maxNumericSize ≤ kMaxLogMessageLen
  · have enough : maxNumericSize ≤ b.remain := by omega
    obtain ⟨back, rfl, size⟩ := h
    have wide : held.length + 32 ≤ kMaxLogMessageLen := fits
    have room : (decimalText v).length < back.length := by omega
    refine ⟨_, ?_, by rw [if_pos fits]; exact holds_converted size room⟩
    rw [FixedBuffer.copy2buf, if_pos enough, convert_spec held back v room]
    rfl
  · refine ⟨b, if_neg (by omega), ?_⟩
    rw [if_neg fits, List.append_nil]
    exact h

theorem Holds.appendDouble (h : b.Holds held) (v : Double) : ∃ c, b.appendDouble v = .ok c ∧
    c.Holds (held ++ if held.length + maxNumericSize ≤ kMaxLogMessageLen then doubleText v else []) := by
  have space := h.remain
  have short := doubleText_length v
  by_cases fits : held.length + maxNumericSize ≤ kMaxLogMessageLen
  · have enough : maxNumericSize ≤ b.remain := by omega
    obtain ⟨back, rfl, size⟩ := h
    have wide : held.length + 32 ≤ kMaxLogMessageLen := fits
    have room : (doubleText v).length < back.length := by omega
    have whole : (doubleText v).take (maxNumericSize - 1) = doubleText v :=
      List.take_of_length_le (by simp only [maxNumericSize]; omega)
    have copied := memcpy_behind held back (doubleText v ++ [0])
      (by rw [List.length_append, List.length_singleton]; omega)
    rw [List.length_append, List.length_singleton, List.append_assoc] at copied
    refine ⟨_, ?_, by rw [if_pos fits]; exact holds_converted size room⟩
    rw [FixedBuffer.appendDouble, if_pos enough, snprintf, if_neg (by decide), whole, copied]
    rfl
  · refine ⟨b, if_neg (by omega), ?_⟩
    rw [if_neg fits, List.append_nil]
    exact h

theorem Holds.appendPointer (h : b.Holds held) (p : UInt64) : ∃ c, b.appendPointer p = .ok c ∧
    c.Holds (held ++ if held.length + (maxNumericSize + 3) ≤ kMaxLogMessageLen then
      ascii "0x" ++ hexText p.toNat else []) := by
  have space := h.remain
  have short := hexText_length p.toNat_lt
  by_cases fits : held.length + (maxNumericSize + 3) ≤ kMaxLogMessageLen
  · have wide : held.length + 35 ≤ kMaxLogMessageLen := fits
    have two : (ascii "0x").length = 2 := by decide
    obtain ⟨c, appended, held'⟩ := h.append (ascii "0x")
    rw [if_pos (by omega)] at held'
    obtain ⟨back, rfl, size⟩ := held'
    rw [List.length_append] at size
    have room : (hexText p.toNat).length < back.length := by omega
    have behind := holds_converted (by rw [List.length_append]; exact size) room
    refine ⟨_, ?_, by rw [if_pos fits, ← List.append_assoc]; exact behind⟩
    have enough : maxNumericSize + 2 < b.remain := by
      simp only [maxNumericSize]
      omega
    rw [FixedBuffer.appendPointer, if_pos enough, appended, ok_bind]
    simp only [convertHex_spec _ back p room, ok_bind]
    rfl
  · refine ⟨b, if_neg (by omega), ?_⟩
    rw [if_neg fits, List.append_nil]
    exact h

/-- An item is written whole where it finds the space it asks for, and not at all elsewhere. -/
theorem Holds.insert (h : b.Holds held) (item : Item) : ∃ c, b.insert item = .ok c ∧
    c.Holds (held ++ if held.length + item.room ≤ kMaxLogMessageLen then item.text else []) := by
  have piece (buf : Bytes) : ∃ c, (do return (← b.append buf).2 : Except Fault FixedBuffer) = .ok c ∧
      c.Holds (held ++ if held.length + buf.length ≤ kMaxLogMessageLen then buf else []) := by
    obtain ⟨c, run, held'⟩ := h.append buf
    exact ⟨c, by rw [run]; rfl, held'⟩
  have unsigned (n : Nat) (small : n < 18446744073709551616) := h.copy2buf n (by omega)
  have signed (v : Int) (low : -9223372036854775808 ≤ v) (high : v < 9223372036854775808) :=
    h.copy2buf v (by omega)
  cases item with
  | bool v =>
    have one : (ascii (if v then "1" else "0")).length = 1 := by cases v <;> decide
    obtain ⟨c, run, held'⟩ := piece (ascii (if v then "1" else "0"))
    rw [one] at held'
    exact ⟨c, run, held'⟩
  | short v =>
    have low := v.le_toInt
    have high := v.toInt_lt
    exact signed v.toInt (by omega) (by omega)
  | unsignedShort v =>
    have high := v.toNat_lt
    exact unsigned v.toNat (by omega)
  | int v =>
    have low := v.le_toInt
    have high := v.toInt_lt
    exact signed v.toInt (by omega) (by omega)
  | unsignedInt v =>
    have high := v.toNat_lt
    exact unsigned v.toNat (by omega)
  | long v => exact signed v.toInt v.le_toInt v.toInt_lt
  | unsignedLong v => exact unsigned v.toNat v.toNat_lt
  | longLong v => exact signed v.toInt v.le_toInt v.toInt_lt
  | unsignedLongLong v => exact unsigned v.toNat v.toNat_lt
  | pointer p => exact h.appendPointer p
  | float v => exact h.appendDouble v.toDouble
  | double v => exact h.appendDouble v
  | char v => exact piece [v]
  | unsignedChars str => exact piece (str.getD (ascii "(null)"))
  | chars str => exact piece (str.getD (ascii "(null)"))
  | string str => exact piece str
  | buffer contents => exact piece contents

/-- For every memory and every sequence of insertions: no store is outside the buffer, and the contents
are the texts, in order, of the items that found the space they asked for. -/
theorem insertAll_holds (items : List Item) (h : b.Holds held) : ∃ c,
    items.foldlM insert b = .ok c ∧ c.Holds (held ++ textOf (taken held.length items)) := by
  induction items generalizing b held with
  | nil => exact ⟨b, rfl, by rw [taken, textOf, List.flatMap_nil, List.append_nil]; exact h⟩
  | cons item items ih =>
    obtain ⟨c, first, held'⟩ := h.insert item
    obtain ⟨d, rest, held''⟩ := ih held'
    refine ⟨d, by rw [List.foldlM_cons, first, ok_bind, rest], ?_⟩
    unfold taken
    by_cases fits : held.length + item.room ≤ kMaxLogMessageLen
    · rw [if_pos fits, List.length_append, List.append_assoc] at held''
      rw [if_pos fits, textOf, List.flatMap_cons]
      exact held''
    · rw [if_neg fits, List.append_nil] at held''
      rw [if_neg fits]
      exact held''

/-- For every sequence of insertions into a new stream, whatever its memory held: no byte is stored
outside the buffer, and its contents are the texts of a subsequence of the items, those that find the
space they ask for. -/
theorem stream_in_bounds (memory : Fin kMaxLogMessageLen → Byte) (items : List Item) : ∃ b kept,
    items.foldlM insert (new memory) = .ok b ∧ b.length ≤ kMaxLogMessageLen ∧ kept = taken 0 items ∧
      kept.Sublist items ∧ b.contents = textOf kept := by
  obtain ⟨b, run, held⟩ := insertAll_holds items (new_holds memory)
  refine ⟨b, taken 0 items, run, ?_, rfl, taken_sublist items 0, held.contents⟩
  obtain ⟨back, rfl, size⟩ := held
  exact Nat.le.intro size

end FixedBuffer

end Yamq.Stream
