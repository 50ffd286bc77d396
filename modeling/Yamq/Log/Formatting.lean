import Yamq.Log.LogStream
import Yamq.Lib.Numeral

/-! `convert` and `convertHex` at an integer type of any width: they write the canonical numeral. -/
namespace Yamq.Stream
open Numeral

variable {w : Nat}

/-- The number that a signed or unsigned variable of `w` bits holds. -/
def intValue (signed : Bool) (x : BitVec w) : Int := if signed then x.toInt else x.toNat

/-- The loop of `convert<T>`. The quotient is stored in `i`, a variable of the type. -/
def convertLoopAt (signed : Bool) (base : Nat) (digit : Int → Except Fault Byte) :
    Nat → Bytes → Nat → BitVec w → Except Fault (Bytes × Nat)
  | 0, _, _, _ => .error .endless
  | fuel + 1, data, p, i => do
    let data ← poke data p (← digit ((intValue signed i).tmod base))
    let i := BitVec.ofInt w ((intValue signed i).tdiv base)
    if intValue signed i ≠ 0 then convertLoopAt signed base digit fuel data (p + 1) i
    else return (data, p + 1)

def convertAt (signed : Bool) (data : Bytes) (buf : Nat) (value : BitVec w) :
    Except Fault (Bytes × Nat) := do
  let (data, p) ← convertLoopAt signed 10 zero ((intValue signed value).natAbs + 1) data buf value
  let (data, p) ← storeSign data p (intValue signed value)
  let data ← poke data p 0
  return (reverse data buf p, p - buf)

def convertHexAt (data : Bytes) (buf : Nat) (value : BitVec w) : Except Fault (Bytes × Nat) := do
  let (data, p) ← convertLoopAt false 16 hex (value.toNat + 1) data buf value
  let data ← poke data p 0
  return (reverse data buf p, p - buf)

/-! Numerals in bytes, and how they are read. -/

/-- The digits `0` to `9` and `A` to `F`. -/
def digitByte (d : Nat) : Byte := if d < 10 then (48 + d).toUInt8 else (55 + d).toUInt8

def digitValue (c : Byte) : Nat := if c.toNat ≤ 57 then c.toNat - 48 else c.toNat - 55

def sign (v : Int) : Bytes := if v < 0 then [45] else []

/-- A sign exactly for a negative number, and the digits of a canonical numeral. -/
def IsNumeral (base : Nat) (v : Int) (text : Bytes) : Prop :=
  ∃ digits, Canonical base digits ∧ value base digits = v.natAbs ∧ text = sign v ++ digits.map digitByte

def readNumeral (base : Nat) (text : Bytes) : Int :=
  if text.head? = some 45 then -(value base (text.tail.map digitValue))
  else value base (text.map digitValue)

variable {base : Nat} {v : Int} {text text' : Bytes} {digits : List Nat}

theorem isNumeral_unique (big : 1 < base) (h : IsNumeral base v text) (h' : IsNumeral base v text') :
    text = text' := by
  obtain ⟨digits, canonical, same, rfl⟩ := h
  obtain ⟨digits', canonical', same', rfl⟩ := h'
  rw [canonical.unique big, canonical'.unique big, same, same']

theorem digitValue_digitByte (small : ∀ d ∈ digits, d < 16) :
    (digits.map digitByte).map digitValue = digits := by
  have table : ∀ d < 16, digitValue (digitByte d) = d := by decide
  rw [List.map_map]
  conv => rhs; rw [← List.map_id digits]
  exact List.map_congr_left fun d member => table d (small d member)

theorem readNumeral_spec (hexadecimal : base ≤ 16) (h : IsNumeral base v text) :
    readNumeral base text = v := by
  obtain ⟨digits, canonical, same, rfl⟩ := h
  have small : ∀ d ∈ digits, d < 16 := fun d member =>
    Nat.lt_of_lt_of_le (canonical.small d member) hexadecimal
  by_cases negative : v < 0
  · rw [sign, if_pos negative, List.singleton_append, readNumeral, List.head?_cons, if_pos rfl,
      List.tail_cons, digitValue_digitByte small, same]
    omega
  · have unsigned : (digits.map digitByte).head? ≠ some 45 := by
      have table : ∀ d < 16, digitByte d ≠ 45 := by decide
      intro lead
      obtain ⟨d, member, minus⟩ := List.mem_map.mp (List.mem_of_mem_head? lead)
      exact table d (small d member) minus
    rw [sign, if_neg negative, List.nil_append, readNumeral, if_neg unsigned,
      digitValue_digitByte small, same]
    omega

theorem decimalText_isNumeral (v : Int) : IsNumeral 10 v (decimalText v) := by
  refine ⟨numeral 10 v.natAbs, numeral_canonical (by decide) _, value_numeral 10 _, ?_⟩
  have table : ∀ d < 10, (Nat.digitChar d).toNat.toUInt8 = digitByte d := by decide
  have digits : ascii (toString v.natAbs) = (numeral 10 v.natAbs).map digitByte := by
    rw [← decimal_bytes, toDigits_eq_numeral (by decide), List.map_map]
    exact List.map_congr_left fun d member =>
      table d ((numeral_canonical (by decide) v.natAbs).small d member)
  rw [decimalText, digits, sign]
  split <;> rfl

theorem hexText_isNumeral (n : Nat) : IsNumeral 16 n (hexText n) := by
  refine ⟨numeral 16 n, numeral_canonical (by decide) _, value_numeral 16 _, ?_⟩
  have table : ∀ d < 16, (Nat.digitChar d).toUpper.toNat.toUInt8 = digitByte d := by decide
  have positive : ¬ (n : Int) < 0 := Int.not_lt.mpr (Int.natCast_nonneg n)
  rw [hexText, toDigits_eq_numeral (by decide), List.map_map, sign, if_neg positive, List.nil_append]
  exact List.map_congr_left fun d member =>
    table d ((numeral_canonical (by decide) n).small d member)

/-! No quotient leaves the type. -/

theorem intValue_quotient (signed : Bool) (x : BitVec w) (base : Nat) :
    intValue signed (BitVec.ofInt w ((intValue signed x).tdiv base)) = (intValue signed x).tdiv base := by
  have shrinks := Int.natAbs_tdiv_le_natAbs (intValue signed x) base
  have up : 0 ≤ intValue signed x → 0 ≤ (intValue signed x).tdiv base := fun low =>
    Int.tdiv_nonneg low (Int.natCast_nonneg base)
  have down : intValue signed x ≤ 0 → (intValue signed x).tdiv base ≤ 0 := by
    intro high
    have mirrored := Int.tdiv_nonneg (Int.neg_nonneg.mpr high) (Int.natCast_nonneg base)
    rw [Int.neg_tdiv] at mirrored
    omega
  generalize (intValue signed x).tdiv base = q at shrinks up down ⊢
  cases signed with
  | true =>
    have low := BitVec.le_two_mul_toInt (x := x)
    have high := BitVec.two_mul_toInt_lt (x := x)
    simp only [intValue, if_true] at shrinks up down ⊢
    rw [BitVec.toInt_ofInt]
    apply Int.bmod_eq_of_le_mul_two
    · push_cast
      omega
    · push_cast
      omega
  | false =>
    have high := x.isLt
    simp only [intValue, Bool.false_eq_true, if_false] at shrinks up down ⊢
    obtain ⟨n, rfl⟩ := Int.eq_ofNat_of_zero_le (up (Int.natCast_nonneg _))
    rw [BitVec.ofInt_natCast, BitVec.toNat_ofNat, Nat.mod_eq_of_lt (by omega)]

theorem convertLoopAt_eq (signed : Bool) (base : Nat) (digit : Int → Except Fault Byte) (fuel : Nat)
    (data : Bytes) (p : Nat) (x : BitVec w) :
    convertLoopAt signed base digit fuel data p x =
      convertLoop base digit fuel data p (intValue signed x) := by
  induction fuel generalizing data p x with
  | zero => rfl
  | succ fuel ih => simp only [convertLoopAt, convertLoop, ih, intValue_quotient]

/-- `convert` at a type does what it does on the number itself. -/
theorem convertAt_eq (signed : Bool) (data : Bytes) (buf : Nat) (x : BitVec w) :
    convertAt signed data buf x = convert data buf (intValue signed x) := by
  rw [convertAt, convertLoopAt_eq, convert]

/-- `uintptr_t` has 64 bits. -/
theorem convertHexAt_eq (data : Bytes) (buf : Nat) (p : UInt64) :
    convertHexAt data buf p.toBitVec = convertHex data buf p := by
  rw [convertHexAt, convertLoopAt_eq, convertHex]
  rfl

theorem convertHexAt_spec (front back : Bytes) (x : BitVec w)
    (room : (hexText x.toNat).length < back.length) :
    convertHexAt (front ++ back) front.length x = .ok (front ++ (hexText x.toNat ++
      0 :: back.drop ((hexText x.toNat).length + 1)), (hexText x.toNat).length) := by
  rw [convertHexAt, convertLoopAt_eq]
  exact hexText_stored front back x.toNat room

/-! The space that `copy2buf` and `operator<<` check for. -/

theorem intValue_natAbs_lt (signed : Bool) (x : BitVec w) : (intValue signed x).natAbs < 2 ^ w + 1 := by
  have high := x.isLt
  have low := BitVec.le_two_mul_toInt (x := x)
  have high' := BitVec.two_mul_toInt_lt (x := x)
  have cast : ((2 ^ w : Nat) : Int) = 2 ^ w := by push_cast; rfl
  rw [← cast] at low high'
  unfold intValue
  split <;> omega

theorem decimalText_fits (signed : Bool) (x : BitVec w) (narrow : w ≤ 64) :
    (decimalText (intValue signed x)).length < maxNumericSize := by
  have bound := intValue_natAbs_lt signed x
  have most : 2 ^ w ≤ 2 ^ 64 := Nat.pow_le_pow_right (by decide) narrow
  have short := decimalText_length (intValue signed x) (by omega)
  exact Nat.lt_of_le_of_lt short (by decide)

theorem hexText_fits (x : BitVec w) (narrow : w ≤ 64) : (hexText x.toNat).length < maxNumericSize := by
  have most : 2 ^ w ≤ 2 ^ 64 := Nat.pow_le_pow_right (by decide) narrow
  exact Nat.lt_of_le_of_lt (hexText_length (Nat.lt_of_lt_of_le x.isLt most)) (by decide)

/-- At every width, `convert` writes the canonical decimal numeral of a signed or unsigned number and
`convertHex` the hexadecimal one of an unsigned number, each with a NUL behind it, and they return its
length. Up to 64 bits the numeral and the NUL take no more than `maxNumericSize` bytes. -/
theorem formatting_exact (w : Nat) :
    (∀ (signed : Bool) (x : BitVec w), ∃ text, IsNumeral 10 (intValue signed x) text ∧
      readNumeral 10 text = intValue signed x ∧ (w ≤ 64 → text.length < maxNumericSize) ∧
      ∀ front back : Bytes, text.length < back.length →
        convertAt signed (front ++ back) front.length x =
          .ok (front ++ (text ++ 0 :: back.drop (text.length + 1)), text.length)) ∧
    ∀ x : BitVec w, ∃ text, IsNumeral 16 x.toNat text ∧
      readNumeral 16 text = x.toNat ∧ (w ≤ 64 → text.length < maxNumericSize) ∧
      ∀ front back : Bytes, text.length < back.length →
        convertHexAt (front ++ back) front.length x =
          .ok (front ++ (text ++ 0 :: back.drop (text.length + 1)), text.length) := by
  constructor
  · intro signed x
    have numeral := decimalText_isNumeral (intValue signed x)
    refine ⟨decimalText (intValue signed x), numeral, readNumeral_spec (by decide) numeral,
      decimalText_fits signed x, ?_⟩
    intro front back room
    rw [convertAt_eq]
    exact convert_spec front back (intValue signed x) room
  · intro x
    have numeral := hexText_isNumeral x.toNat
    exact ⟨hexText x.toNat, numeral, readNumeral_spec (by decide) numeral, hexText_fits x,
      fun front back => convertHexAt_spec front back x⟩

end Yamq.Stream
