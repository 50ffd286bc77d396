import Mathlib.Algebra.Group.Nat.Defs
import Mathlib.Logic.Function.Iterate

/-! A search that walks along `next` until it meets a value that is not taken, and the walk of a
signed counter that starts over when it wraps to a negative number. -/
namespace CyclicSearch

universe u

section
variable {α : Type u} {next : α → α} {taken : α → Bool} {a b : α} {turns more : Nat}

def search (next : α → α) (taken : α → Bool) : Nat → α → Option α
  | 0, _ => none
  | turns + 1, a => if taken a then search next taken turns (next a) else some a

theorem search_more (found : search next taken turns a = some b) (enough : turns ≤ more) :
    search next taken more a = some b := by
  induction turns generalizing a more with
  | zero => cases found
  | succ turns ih =>
    obtain ⟨more, rfl⟩ := Nat.exists_eq_succ_of_ne_zero (Nat.ne_of_gt (Nat.zero_lt_of_lt enough))
    rw [search] at found ⊢
    split at found
    · rename_i here
      rw [if_pos here]
      exact ih found (Nat.le_of_succ_le_succ enough)
    · rename_i here
      rw [if_neg here]
      exact found

theorem search_free (found : search next taken turns a = some b) : taken b = false := by
  induction turns generalizing a with
  | zero => cases found
  | succ turns ih =>
    rw [search] at found
    split at found
    · exact ih found
    · rename_i here
      cases found
      exact Bool.eq_false_iff.mpr here

/-- What holds at the start and is kept by `next` holds of the value found. -/
theorem search_invariant {P : α → Prop} (keep : ∀ x, P x → P (next x)) (start : P a)
    (found : search next taken turns a = some b) : P b := by
  induction turns generalizing a with
  | zero => cases found
  | succ turns ih =>
    rw [search] at found
    split at found
    · exact ih (keep a start) found
    · cases found
      exact start

/-- A free value within reach ends the search. -/
theorem search_ends {k : Nat} (free : taken (next^[k] a) = false) (enough : k < turns) :
    ∃ b, search next taken turns a = some b := by
  induction k generalizing a turns with
  | zero =>
    obtain ⟨turns, rfl⟩ := Nat.exists_eq_succ_of_ne_zero (Nat.ne_of_gt enough)
    have here : ¬ taken a = true := Bool.eq_false_iff.mp free
    exact ⟨a, by rw [search, if_neg here]⟩
  | succ k ih =>
    obtain ⟨turns, rfl⟩ := Nat.exists_eq_succ_of_ne_zero (Nat.ne_of_gt (Nat.zero_lt_of_lt enough))
    rw [search]
    split
    · exact ih free (Nat.lt_of_succ_lt_succ enough)
    · exact ⟨a, rfl⟩

end

section
variable {w : Nat} {least x v : BitVec w}

def startOver (least x : BitVec w) : BitVec w := if x.toInt < 0 then least else x

def successor (least x : BitVec w) : BitVec w := startOver least (x + 1)

theorem startOver_nonneg (sign : 0 ≤ least.toInt) (x : BitVec w) : 0 ≤ (startOver least x).toInt := by
  unfold startOver
  split
  · exact sign
  · rename_i positive
    exact Int.not_lt.mp positive

theorem nonneg_iff : 0 ≤ x.toInt ↔ 2 * x.toNat < 2 ^ w := by
  rw [← Int.not_lt, BitVec.toInt_neg_iff, Nat.not_le]

theorem two_pow_even (wide : 0 < w) : 2 ^ w = 2 * 2 ^ (w - 1) := by
  rw [← Nat.pow_succ', Nat.succ_eq_add_one, Nat.sub_add_cancel wide]

theorem toNat_succ (inside : 2 * x.toNat < 2 ^ w) (wide : 0 < w) : (x + 1).toNat = x.toNat + 1 := by
  have bound : x.toNat + 1 < 2 ^ w := by
    have even := two_pow_even wide
    omega
  have one : (1 : BitVec w).toNat = 1 := BitVec.toNat_one wide
  rw [BitVec.toNat_add, one, Nat.mod_eq_of_lt bound]

theorem successor_climbs (inside : 2 * (x.toNat + 1) < 2 ^ w) (wide : 0 < w) :
    (successor least x).toNat = x.toNat + 1 := by
  have up := toNat_succ (x := x) (by omega) wide
  have positive : ¬ (x + 1).toInt < 0 := Int.not_lt.mpr (nonneg_iff.mpr (up ▸ inside))
  rw [successor, startOver, if_neg positive, up]

theorem successor_last (inside : 2 * x.toNat < 2 ^ w) (last : 2 ^ w ≤ 2 * (x.toNat + 1)) (wide : 0 < w) :
    successor least x = least := by
  have negative : (x + 1).toInt < 0 := BitVec.toInt_neg_iff.mpr (toNat_succ inside wide ▸ last)
  rw [successor, startOver, if_pos negative]

theorem iterate_climbs (k : Nat) (inside : 2 * (x.toNat + k) < 2 ^ w) (wide : 0 < w) :
    ((successor least)^[k] x).toNat = x.toNat + k := by
  induction k with
  | zero => rfl
  | succ k ih =>
    have below := ih (by omega)
    rw [Function.iterate_succ_apply', successor_climbs (by omega) wide, below]
    omega

theorem iterate_reaches (above : x.toNat ≤ v.toNat) (inside : 2 * v.toNat < 2 ^ w) (wide : 0 < w) :
    (successor least)^[v.toNat - x.toNat] x = v := by
  apply BitVec.eq_of_toNat_eq
  rw [iterate_climbs _ (by omega) wide]
  omega

/-- Every value from `least` on comes up within one round. -/
theorem round (start : 0 ≤ x.toInt) (target : 0 ≤ v.toInt) (least_le : least.toNat ≤ v.toNat)
    (wide : 0 < w) : ∃ k, 2 * k < 2 ^ w ∧ (successor least)^[k] x = v := by
  have first := nonneg_iff.mp start
  have last := nonneg_iff.mp target
  by_cases ahead : x.toNat ≤ v.toNat
  · exact ⟨v.toNat - x.toNat, by omega, iterate_reaches ahead last wide⟩
  · -- up to the largest number, over to `least`, and on from there
    have even := two_pow_even wide
    obtain ⟨top, at_top⟩ := Nat.exists_eq_add_of_le (show x.toNat ≤ 2 ^ (w - 1) - 1 by omega)
    have climbed : ((successor least)^[top] x).toNat = 2 ^ (w - 1) - 1 :=
      at_top ▸ iterate_climbs top (by omega) wide
    refine ⟨(v.toNat - least.toNat) + (top + 1), by omega, ?_⟩
    rw [Function.iterate_add_apply, Function.iterate_succ_apply',
      successor_last (by omega) (by omega) wide, iterate_reaches least_le last wide]

end

end CyclicSearch
