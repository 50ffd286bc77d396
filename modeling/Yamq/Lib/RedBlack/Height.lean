import Yamq.Lib.RedBlack.Balance
import Mathlib.Algebra.Group.Nat.Defs

/-! How deep a balanced tree is: at most two nodes for each black one on a path, and so at most twice the
logarithm of the number of nodes. -/
namespace RedBlack

variable {ι α : Type}

namespace Tree

/-- The number of nodes on the longest path to a missing node. -/
def height : Tree ι α → Nat
  | nil => 0
  | node _ l _ _ r => max l.height r.height + 1

def size (t : Tree ι α) : Nat := t.toList.length

@[simp] theorem height_nil : (nil : Tree ι α).height = 0 := rfl

@[simp] theorem height_node (c : Color) (l : Tree ι α) (i : ι) (a : α) (r : Tree ι α) :
    (node c l i a r).height = max l.height r.height + 1 := rfl

@[simp] theorem size_nil : (nil : Tree ι α).size = 0 := rfl

@[simp] theorem size_node (c : Color) (l : Tree ι α) (i : ι) (a : α) (r : Tree ι α) :
    (node c l i a r).size = l.size + r.size + 1 := by
  simp only [size, toList_node, List.length_append, List.length_cons]
  omega

variable {c : Color} {l r : Tree ι α} {i : ι} {a : α}

theorem height_left_lt : l.height < (node c l i a r).height :=
  Nat.lt_succ_of_le (Nat.le_max_left ..)

theorem height_right_lt : r.height < (node c l i a r).height :=
  Nat.lt_succ_of_le (Nat.le_max_right ..)

end Tree

/-- The most nodes that a path may have below a root of this colour, above `n` black ones. -/
def heightLimit : Color → Nat → Nat
  | .red, n => 2 * n + 1
  | .black, n => 2 * n

theorem heightLimit_le (c : Color) (n : Nat) : heightLimit c n ≤ 2 * n + 1 := by
  cases c with
  | red => exact Nat.le_refl _
  | black => exact Nat.le_succ _

theorem Balanced.height_le {t : Tree ι α} {n : Nat} (h : Balanced t n) :
    t.height ≤ heightLimit t.color n := by
  induction h with
  | nil => exact Nat.le_refl _
  | red lb rb _ _ ihl ihr =>
    rw [lb] at ihl
    rw [rb] at ihr
    exact Nat.succ_le_succ (Nat.max_le.mpr ⟨ihl, ihr⟩)
  | @black l r i a n _ _ ihl ihr =>
    have left := Nat.le_trans ihl (heightLimit_le ..)
    have right := Nat.le_trans ihr (heightLimit_le ..)
    exact Nat.succ_le_succ (Nat.max_le.mpr ⟨left, right⟩)

theorem Balanced.size_ge {t : Tree ι α} {n : Nat} (h : Balanced t n) : 2 ^ n ≤ t.size + 1 := by
  induction h with
  | nil => exact Nat.le_refl _
  | red _ _ _ _ ihl _ =>
    rw [Tree.size_node]
    omega
  | black _ _ ihl ihr =>
    rw [Tree.size_node, Nat.pow_succ]
    omega

/-- A valid tree of fewer than `2 ^ (k + 1) - 1` nodes has no path with more than `2 * k` of them. -/
theorem Valid.height_le {t : Tree ι α} (h : Valid t) {k : Nat} (few : t.size + 1 < 2 ^ (k + 1)) :
    t.height ≤ 2 * k := by
  obtain ⟨black, n, balanced⟩ := h
  have high := balanced.height_le
  rw [black] at high
  have less := Nat.lt_of_le_of_lt balanced.size_ge few
  have low : n < k + 1 := (Nat.pow_lt_pow_iff_right Nat.one_lt_two).mp less
  have high : t.height ≤ 2 * n := high
  omega

theorem Valid.height_log {t : Tree ι α} (h : Valid t) : t.height ≤ 2 * (t.size + 1).log2 :=
  h.height_le Nat.lt_log2_self

/-- A place in a tree is no deeper than the tree is high. -/
theorem Path.length_add_height_le (path : Path ι α) (t : Tree ι α) :
    path.length + t.height ≤ (Path.fill path t).height := by
  induction path generalizing t with
  | nil => simp
  | cons f path ih =>
    have above : t.height < (f.plug t).height := by
      obtain ⟨d, c, i, a, s⟩ := f
      cases d with
      | left => exact Tree.height_left_lt
      | right => exact Tree.height_right_lt
    have rest := ih (f.plug t)
    rw [Path.fill_cons, List.length_cons]
    omega

end RedBlack
