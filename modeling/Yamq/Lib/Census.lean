import Mathlib.Data.Fintype.Basic
import Mathlib.Data.Fintype.Card
import Mathlib.Algebra.BigOperators.Group.Finset.Piecewise

/-! How many members of a finite family stand where a predicate holds, and what the move of one member
changes. -/
namespace Census

variable {ι α : Type} [Fintype ι] (p : α → Bool) (s : ι → α)

def count : Nat := (Finset.univ.filter fun i => p (s i) = true).card

theorem count_eq_sum : count p s = ∑ i, if p (s i) = true then 1 else 0 :=
  Finset.card_filter ..

theorem count_update [DecidableEq ι] (i : ι) (x : α) :
    count p (Function.update s i x) + (if p (s i) = true then 1 else 0) =
      count p s + (if p x = true then 1 else 0) := by
  rw [count_eq_sum, count_eq_sum, ← Finset.add_sum_erase _ _ (Finset.mem_univ i),
    ← Finset.add_sum_erase Finset.univ (fun j => if p (s j) = true then 1 else 0) (Finset.mem_univ i),
    Function.update_self]
  have others : ∑ j ∈ Finset.univ.erase i, (if p (Function.update s i x j) = true then 1 else 0) =
      ∑ j ∈ Finset.univ.erase i, if p (s j) = true then 1 else 0 := by
    apply Finset.sum_congr rfl
    intro j member
    rw [Function.update_of_ne (Finset.ne_of_mem_erase member)]
  rw [others]
  omega

theorem count_le_card : count p s ≤ Fintype.card ι := Finset.card_filter_le ..

theorem count_pos : 0 < count p s ↔ ∃ i, p (s i) = true := by
  simp [count, Finset.card_pos, Finset.filter_nonempty_iff]

theorem count_zero : count p s = 0 ↔ ∀ i, p (s i) = false := by
  simp [count, Finset.card_eq_zero, Finset.filter_eq_empty_iff]

end Census
