import Yamq.Machine
import Mathlib.Algebra.Group.Nat.Defs

/-! Decimal text in bytes. -/
namespace Yamq

theorem ascii_append (s t : String) : ascii (s ++ t) = ascii s ++ ascii t := by
  rw [ascii, String.toList_append, List.map_append]
  rfl

theorem ascii_length (s : String) : (ascii s).length = s.toList.length := List.length_map ..

theorem toString_toList (n : Nat) : (toString n).toList = Nat.toDigits 10 n := Nat.toList_repr

theorem digit_range {n : Nat} {c : Char} (member : c ∈ Nat.toDigits 10 n) :
    48 ≤ c.toNat ∧ c.toNat ≤ 57 :=
  Char.isDigit_iff_toNat.mp (Nat.isDigit_of_mem_toDigits (by decide) (by decide) member)

/-- The bytes of a decimal number are digits. -/
theorem digit_byte {n : Nat} {d : Byte} (member : d ∈ ascii (toString n)) :
    48 ≤ d.toNat ∧ d.toNat ≤ 57 := by
  rw [ascii, toString_toList, List.mem_map] at member
  obtain ⟨c, inside, rfl⟩ := member
  have range := digit_range inside
  have small : c.toNat.toUInt8.toNat = c.toNat := Nat.mod_eq_of_lt (by omega)
  omega

/-- A number below `10 ^ k` has at most `k` digits. -/
theorem digits_length {n k : Nat} (some_ : 0 < k) :
    (ascii (toString n)).length ≤ k ↔ n < 10 ^ k := by
  rw [ascii_length, toString_toList]
  exact Nat.length_toDigits_le_iff (by decide) some_

/-- The number that digits stand for. -/
def decimal (digits : Bytes) : Nat :=
  Nat.ofDigitChars 10 (digits.map fun d => Char.ofNat d.toNat) 0

theorem decimal_toString (n : Nat) : decimal (ascii (toString n)) = n := by
  have same : (ascii (toString n)).map (fun d => Char.ofNat d.toNat) = Nat.toDigits 10 n := by
    rw [ascii, toString_toList, List.map_map]
    conv => rhs; rw [← List.map_id (Nat.toDigits 10 n)]
    refine List.map_congr_left fun c member => ?_
    have range := digit_range member
    have small : c.toNat.toUInt8.toNat = c.toNat := Nat.mod_eq_of_lt (by omega)
    rw [Function.comp_apply, small, Char.ofNat_toNat]
    rfl
  rw [decimal, same, Nat.ofDigitChars_ten_toDigits]

end Yamq
