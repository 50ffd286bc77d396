import Mathlib.Data.Nat.Digits.Lemmas

/-! Positional numerals: the digits of a number with the most significant one first. -/
namespace Numeral

variable {base n : Nat} {digits : List Nat}

/-- There is a digit, each is below the base, and only zero begins with a zero. -/
structure Canonical (base : Nat) (digits : List Nat) : Prop where
  nonempty : digits ≠ []
  small : ∀ d ∈ digits, d < base
  lead : digits.head? = some 0 → digits = [0]

def value (base : Nat) (digits : List Nat) : Nat := Nat.ofDigits base digits.reverse

def numeral (base n : Nat) : List Nat := if n = 0 then [0] else (Nat.digits base n).reverse

theorem numeral_pos (some_ : n ≠ 0) : numeral base n = (Nat.digits base n).reverse := if_neg some_

theorem numeral_canonical (big : 1 < base) (n : Nat) : Canonical base (numeral base n) := by
  by_cases zero : n = 0
  · rw [numeral, if_pos zero]
    exact ⟨List.cons_ne_nil _ _, fun d member => by rw [List.mem_singleton.mp member]; omega,
      fun _ => rfl⟩
  · rw [numeral_pos zero]
    have some_ : Nat.digits base n ≠ [] := Nat.digits_ne_nil_iff_ne_zero.mpr zero
    refine ⟨fun empty => some_ (List.reverse_eq_nil_iff.mp empty), ?_, ?_⟩
    · exact fun d member => Nat.digits_lt_base big (List.mem_reverse.mp member)
    · intro lead
      rw [List.head?_reverse, List.getLast?_eq_some_getLast some_] at lead
      exact absurd (Option.some.inj lead) (Nat.getLast_digit_ne_zero base zero)

theorem value_numeral (base n : Nat) : value base (numeral base n) = n := by
  by_cases zero : n = 0
  · rw [numeral, if_pos zero, zero]
    exact Nat.ofDigits_singleton ..
  · rw [numeral_pos zero, value, List.reverse_reverse, Nat.ofDigits_digits]

/-- A number has one canonical numeral. -/
theorem Canonical.unique (big : 1 < base) (h : Canonical base digits) :
    digits = numeral base (value base digits) := by
  by_cases lead : digits.head? = some 0
  · rw [h.lead lead]
    rfl
  · have last : ∀ some_ : digits.reverse ≠ [], digits.reverse.getLast some_ ≠ 0 := by
      intro some_ zero
      rw [List.getLast_reverse] at zero
      exact lead (zero ▸ List.head?_eq_some_head _)
    have back := Nat.digits_ofDigits base big digits.reverse
      (fun d member => h.small d (List.mem_reverse.mp member)) last
    have some_ : value base digits ≠ 0 := by
      intro zero
      rw [value] at zero
      rw [zero, Nat.digits_zero] at back
      exact h.nonempty (List.reverse_eq_nil_iff.mp back.symm)
    rw [numeral_pos some_, value, back, List.reverse_reverse]

theorem numeral_of_lt (small : n < base) : numeral base n = [n] := by
  by_cases zero : n = 0
  · rw [numeral, if_pos zero, zero]
  · rw [numeral_pos zero, Nat.digits_of_lt base n zero small, List.reverse_singleton]

theorem numeral_of_le (big : 1 < base) (large : base ≤ n) :
    numeral base n = numeral base (n / base) ++ [n % base] := by
  have quotient : n / base ≠ 0 := Nat.ne_of_gt (Nat.div_pos large (by omega))
  rw [numeral_pos (by omega), Nat.digits_def' big (by omega), List.reverse_cons, numeral_pos quotient]

/-- The digits that the core library prints. -/
theorem toDigits_eq_numeral (big : 1 < base) (n : Nat) :
    Nat.toDigits base n = (numeral base n).map Nat.digitChar := by
  induction n using Nat.strongRecOn with
  | ind n ih =>
    rw [Nat.toDigits_eq_if big]
    split
    · rename_i small
      rw [numeral_of_lt small, List.map_singleton]
    · rename_i large
      have less : n / base < n := Nat.div_lt_self (by omega) big
      rw [numeral_of_le big (Nat.not_lt.mp large), List.map_append, ih _ less, List.map_singleton]

end Numeral
