import Mathlib.Logic.Equiv.Basic

/-! A heap whose cells are owned by single pointers: which pointer owns which cell, and what the
pointers see. -/
namespace Ownership

universe u v

variable {ι : Type u} {α : Type v}

/-- The cells by address. Those from `fresh` on have not been used. -/
structure Heap (α : Type v) where
  cells : Nat → Option α
  fresh : Nat

namespace Heap

def empty : Heap α := ⟨fun _ => none, 0⟩

/-- A new cell, at the address `fresh`. -/
def alloc (h : Heap α) (a : α) : Heap α := ⟨Function.update h.cells h.fresh (some a), h.fresh + 1⟩

def write (h : Heap α) (p : Nat) (a : α) : Heap α := { h with cells := Function.update h.cells p (some a) }

def free (h : Heap α) (p : Nat) : Heap α := { h with cells := Function.update h.cells p none }

end Heap

/-- Each pointer that is not null owns a cell of its own, and each cell has an owner. -/
structure Owned (h : Heap α) (own : ι → Option Nat) : Prop where
  cell : ∀ i p, own i = some p → h.cells p ≠ none
  alone : ∀ i j p, own i = some p → own j = some p → i = j
  owner : ∀ p, h.cells p ≠ none → ∃ i, own i = some p
  young : ∀ p, h.cells p ≠ none → p < h.fresh

/-- What the pointers see. -/
def view (h : Heap α) (own : ι → Option Nat) (i : ι) : Option α := (own i).bind h.cells

variable {h : Heap α} {own : ι → Option Nat} {i j : ι} {p : Nat} {a : α}

theorem view_null (null : own i = none) : view h own i = none := by
  rw [view, null, Option.bind_none]

theorem view_at (at_ : own i = some p) : view h own i = h.cells p := by
  rw [view, at_, Option.bind_some]

theorem Owned.empty (null : ∀ i, own i = none) : Owned (Heap.empty : Heap α) own where
  cell i p at_ := by cases (null i).symm.trans at_
  alone i j p at_ := by cases (null i).symm.trans at_
  owner p used := absurd rfl used
  young p used := absurd rfl used

theorem Owned.view_eq_none (owned : Owned h own) : view h own i = none ↔ own i = none := by
  constructor
  · intro none
    cases at_ : own i with
    | none => rfl
    | some p =>
      rw [view_at at_] at none
      exact absurd none (owned.cell i p at_)
  · exact view_null

/-- Pointers that change places. -/
theorem Owned.perm (owned : Owned h own) (e : Equiv.Perm ι) : Owned h (own ∘ e) where
  cell i p at_ := owned.cell (e i) p at_
  alone i j p at_ at_' := e.injective (owned.alone (e i) (e j) p at_ at_')
  owner p used := by
    obtain ⟨i, at_⟩ := owned.owner p used
    exact ⟨e.symm i, by rw [Function.comp_apply, Equiv.apply_symm_apply, at_]⟩
  young := owned.young

theorem Owned.unused (owned : Owned h own) (at_ : own i = some p) : p ≠ h.fresh :=
  Nat.ne_of_lt (owned.young p (owned.cell i p at_))

variable [DecidableEq ι]

theorem Owned.alloc (owned : Owned h own) (null : own i = none) (a : α) :
    Owned (h.alloc a) (Function.update own i (some h.fresh)) ∧
      view (h.alloc a) (Function.update own i (some h.fresh)) = Function.update (view h own) i (some a) := by
  have others (j : ι) (other : j ≠ i) : Function.update own i (some h.fresh) j = own j :=
    Function.update_of_ne other ..
  have kept (q : Nat) (old : q ≠ h.fresh) : (h.alloc a).cells q = h.cells q :=
    Function.update_of_ne old ..
  have new : (h.alloc a).cells h.fresh = some a := Function.update_self ..
  refine ⟨⟨fun j q at_ => ?_, fun j k q at_ at_' => ?_, fun q used => ?_, fun q used => ?_⟩, ?_⟩
  · by_cases here : j = i
    · subst here
      rw [Function.update_self] at at_
      cases at_
      rw [new]
      exact Option.some_ne_none a
    · rw [others j here] at at_
      rw [kept q (owned.unused at_)]
      exact owned.cell j q at_
  · by_cases here : j = i
    · subst here
      rw [Function.update_self] at at_
      cases at_
      by_contra apart
      rw [others k (Ne.symm apart)] at at_'
      exact owned.unused at_' rfl
    · rw [others j here] at at_
      by_cases there : k = i
      · subst there
        rw [Function.update_self] at at_'
        cases at_'
        exact absurd rfl (owned.unused at_)
      · rw [others k there] at at_'
        exact owned.alone j k q at_ at_'
  · by_cases here : q = h.fresh
    · exact ⟨i, by rw [here, Function.update_self]⟩
    · rw [kept q here] at used
      obtain ⟨j, at_⟩ := owned.owner q used
      refine ⟨j, ?_⟩
      rw [others j, at_]
      rintro rfl
      cases null.symm.trans at_
  · by_cases here : q = h.fresh
    · exact here ▸ Nat.lt_succ_self _
    · rw [kept q here] at used
      exact Nat.lt_succ_of_lt (owned.young q used)
  · funext j
    by_cases here : j = i
    · subst here
      rw [Function.update_self, view_at (Function.update_self ..), new]
    · rw [Function.update_of_ne here]
      cases at_ : own j with
      | none => rw [view_null at_, view_null ((others j here).trans at_)]
      | some q => rw [view_at at_, view_at ((others j here).trans at_), kept q (owned.unused at_)]

theorem Owned.free (owned : Owned h own) (at_ : own i = some p) :
    Owned (h.free p) (Function.update own i none) ∧
      view (h.free p) (Function.update own i none) = Function.update (view h own) i none := by
  have others (j : ι) (other : j ≠ i) : Function.update own i none j = own j :=
    Function.update_of_ne other ..
  have apart (j : ι) (other : j ≠ i) (q : Nat) (at_' : own j = some q) : q ≠ p := by
    rintro rfl
    exact other (owned.alone j i q at_' at_)
  have kept (q : Nat) (old : q ≠ p) : (h.free p).cells q = h.cells q := Function.update_of_ne old ..
  have gone : (h.free p).cells p = none := Function.update_self ..
  have null : Function.update own i none i = none := Function.update_self ..
  refine ⟨⟨fun j q at_' => ?_, fun j k q at_' at_'' => ?_, fun q used => ?_, fun q used => ?_⟩, ?_⟩
  · by_cases here : j = i
    · subst here
      cases null.symm.trans at_'
    · rw [others j here] at at_'
      rw [kept q (apart j here q at_')]
      exact owned.cell j q at_'
  · by_cases here : j = i
    · subst here
      cases null.symm.trans at_'
    · by_cases there : k = i
      · subst there
        cases null.symm.trans at_''
      · rw [others j here] at at_'
        rw [others k there] at at_''
        exact owned.alone j k q at_' at_''
  · have old : q ≠ p := by
      rintro rfl
      exact used gone
    rw [kept q old] at used
    obtain ⟨j, at_'⟩ := owned.owner q used
    refine ⟨j, ?_⟩
    rw [others j, at_']
    rintro rfl
    cases at_.symm.trans at_'
    exact old rfl
  · have old : q ≠ p := by
      rintro rfl
      exact used gone
    rw [kept q old] at used
    exact owned.young q used
  · funext j
    by_cases here : j = i
    · subst here
      rw [Function.update_self, view_null null]
    · rw [Function.update_of_ne here]
      cases at_' : own j with
      | none => rw [view_null at_', view_null ((others j here).trans at_')]
      | some q =>
        rw [view_at at_', view_at ((others j here).trans at_'), kept q (apart j here q at_')]

theorem Owned.write (owned : Owned h own) (at_ : own i = some p) (a : α) :
    Owned (h.write p a) own ∧ view (h.write p a) own = Function.update (view h own) i (some a) := by
  have kept (q : Nat) (other : q ≠ p) : (h.write p a).cells q = h.cells q := Function.update_of_ne other ..
  have here : (h.write p a).cells p = some a := Function.update_self ..
  have used (q : Nat) : (h.write p a).cells q ≠ none ↔ h.cells q ≠ none := by
    by_cases same : q = p
    · subst same
      rw [here]
      exact iff_of_true (Option.some_ne_none a) (owned.cell i q at_)
    · rw [kept q same]
  refine ⟨⟨fun j q at_' => (used q).mpr (owned.cell j q at_'), owned.alone,
    fun q some_ => owned.owner q ((used q).mp some_), fun q some_ => owned.young q ((used q).mp some_)⟩, ?_⟩
  funext j
  by_cases same : j = i
  · subst same
    rw [Function.update_self, view_at at_, here]
  · rw [Function.update_of_ne same]
    cases at_' : own j with
    | none => rw [view_null at_', view_null at_']
    | some q =>
      rw [view_at at_', view_at at_', kept q]
      rintro rfl
      exact same (owned.alone j i q at_' at_)

end Ownership
