import Mathlib.Order.Lattice

/-! A map as a list of pairs in ascending order of their keys. -/
namespace SortedMap

section
variable {κ ν : Type} [LT κ] [DecidableLT κ]

/-- The pair is added, or the value under its key replaced. -/
def insert (k : κ) (v : ν) : List (κ × ν) → List (κ × ν)
  | [] => [(k, v)]
  | (j, w) :: m =>
    if k < j then (k, v) :: (j, w) :: m
    else if j < k then (j, w) :: insert k v m
    else (k, v) :: m

end

section
variable {κ ν : Type} [LT κ] [DecidableLT κ] [BEq κ] [LawfulBEq κ]
  [Std.Trichotomous fun x y : κ => x < y] [Std.Irrefl fun x y : κ => x < y]

/-- The value under the key is the new one, the others stay. -/
theorem lookup_insert (k : κ) (v : ν) (m : List (κ × ν)) (j : κ) :
    (insert k v m).lookup j = if j == k then some v else m.lookup j := by
  induction m with
  | nil =>
    rw [insert, List.lookup_cons]
    cases j == k <;> rfl
  | cons y m ih =>
    obtain ⟨i, w⟩ := y
    unfold insert
    split
    · rw [List.lookup_cons]
      cases j == k <;> rfl
    · split
      · rename_i before
        rw [List.lookup_cons, List.lookup_cons, ih]
        cases here : j == i with
        | false => rfl
        | true =>
          have other : (j == k) = false := by
            rw [beq_eq_false_iff_ne, beq_iff_eq.mp here]
            rintro rfl
            exact Std.Irrefl.irrefl (r := fun x y : κ => x < y) _ before
          rw [other]
          rfl
      · rename_i notBefore notBehind
        obtain rfl : k = i :=
          Std.Trichotomous.trichotomous (r := fun x y : κ => x < y) k i notBefore notBehind
        rw [List.lookup_cons, List.lookup_cons]
        cases j == k <;> rfl

end

section
variable {κ ν : Type} [LinearOrder κ] {m : List (κ × ν)} {k : κ} {v w : ν} {x : κ × ν}

def Sorted (m : List (κ × ν)) : Prop := m.Pairwise fun x y => x.1 < y.1

def erase (k : κ) (m : List (κ × ν)) : List (κ × ν) := m.filter fun x => x.1 ≠ k

theorem mem_erase : x ∈ erase k m ↔ x ∈ m ∧ x.1 ≠ k := by simp [erase]

theorem erase_absent (absent : k ∉ m.map Prod.fst) : erase k m = m := by
  rw [erase, List.filter_eq_self]
  intro x member
  refine decide_eq_true fun same => absent ?_
  exact List.mem_map.mpr ⟨x, member, same⟩

theorem Sorted.erase (h : Sorted m) (k : κ) : Sorted (erase k m) := h.filter _

theorem mem_insert (h : Sorted m) : x ∈ insert k v m ↔ x = (k, v) ∨ x ∈ m ∧ x.1 ≠ k := by
  induction m with
  | nil => simp [insert]
  | cons y m ih =>
    obtain ⟨j, w⟩ := y
    rw [Sorted, List.pairwise_cons] at h
    have later (x : κ × ν) (member : x ∈ m) : j < x.1 := h.1 x member
    unfold insert
    split
    · rename_i below
      have all : ∀ x ∈ (j, w) :: m, x.1 ≠ k := by
        rintro x (_ | ⟨_, member⟩)
        · exact below.ne'
        · exact (below.trans (later x member)).ne'
      rw [List.mem_cons]
      exact or_congr_right ⟨fun member => ⟨member, all x member⟩, And.left⟩
    · split
      · rename_i above
        rw [List.mem_cons, ih h.2, List.mem_cons]
        constructor
        · rintro (rfl | rfl | ⟨member, other⟩)
          · exact .inr ⟨.inl rfl, above.ne⟩
          · exact .inl rfl
          · exact .inr ⟨.inr member, other⟩
        · rintro (rfl | ⟨rfl | member, other⟩)
          · exact .inr (.inl rfl)
          · exact .inl rfl
          · exact .inr (.inr ⟨member, other⟩)
      · rename_i notBelow notAbove
        obtain rfl : j = k := le_antisymm (not_lt.mp notBelow) (not_lt.mp notAbove)
        rw [List.mem_cons, List.mem_cons]
        constructor
        · rintro (rfl | member)
          · exact .inl rfl
          · exact .inr ⟨.inr member, (later x member).ne'⟩
        · rintro (rfl | ⟨rfl | member, other⟩)
          · exact .inl rfl
          · exact absurd rfl other
          · exact .inr member

theorem Sorted.insert (h : Sorted m) (k : κ) (v : ν) : Sorted (insert k v m) := by
  induction m with
  | nil => exact List.pairwise_singleton ..
  | cons y m ih =>
    obtain ⟨j, w⟩ := y
    have whole := h
    rw [Sorted, List.pairwise_cons] at h
    unfold SortedMap.insert
    split
    · rename_i below
      refine List.pairwise_cons.mpr ⟨?_, whole⟩
      rintro x (_ | ⟨_, member⟩)
      · exact below
      · exact below.trans (h.1 x member)
    · split
      · rename_i above
        refine List.pairwise_cons.mpr ⟨fun x member => ?_, ih h.2⟩
        rcases (mem_insert h.2).mp member with rfl | ⟨member, _⟩
        · exact above
        · exact h.1 x member
      · rename_i notBelow notAbove
        obtain rfl : j = k := le_antisymm (not_lt.mp notBelow) (not_lt.mp notAbove)
        exact List.pairwise_cons.mpr h

/-- A new key goes where it belongs. -/
theorem Sorted.insert_between {front back : List (κ × ν)} (h : Sorted (front ++ (k, v) :: back)) :
    SortedMap.insert k v (front ++ back) = front ++ (k, v) :: back := by
  induction front with
  | nil =>
    cases back with
    | nil => rfl
    | cons y back =>
      have above : k < y.1 := (List.pairwise_cons.mp h).1 y List.mem_cons_self
      exact if_pos above
  | cons y front ih =>
    obtain ⟨first, rest⟩ := List.pairwise_cons.mp h
    have below : y.1 < k := first (k, v) (by simp)
    rw [List.cons_append, SortedMap.insert, if_neg below.not_gt, if_pos below, ih rest]
    rfl

/-- The first pair behind a key of the map. -/
theorem Sorted.find_behind {front back : List (κ × ν)} (h : Sorted (front ++ (k, v) :: back)) :
    (front ++ (k, v) :: back).find? (k < ·.1) = back.head? := by
  obtain ⟨_, rest, across⟩ := List.pairwise_append.mp h
  have before : front.find? (k < ·.1) = none := by
    rw [List.find?_eq_none]
    intro x member
    simpa using (across x member (k, v) List.mem_cons_self).le
  rw [List.find?_append, before, Option.none_or, List.find?_cons_of_neg (by simp)]
  cases back with
  | nil => rfl
  | cons y back =>
    have later : k < y.1 := (List.pairwise_cons.mp rest).1 y List.mem_cons_self
    exact List.find?_cons_of_pos (by simpa using later)

theorem Sorted.find_between {front back : List (κ × ν)} (h : Sorted (front ++ (k, v) :: back)) :
    (front ++ (k, v) :: back).find? (·.1 = k) = some (k, v) := by
  obtain ⟨_, _, across⟩ := List.pairwise_append.mp h
  have before : front.find? (·.1 = k) = none := by
    rw [List.find?_eq_none]
    intro x member
    simpa using (across x member (k, v) List.mem_cons_self).ne
  rw [List.find?_append, before, Option.none_or, List.find?_cons_of_pos (by simp)]

/-- A key of the map goes, and nothing else. -/
theorem Sorted.erase_between {front back : List (κ × ν)} (h : Sorted (front ++ (k, v) :: back)) :
    SortedMap.erase k (front ++ (k, v) :: back) = front ++ back := by
  obtain ⟨_, rest, across⟩ := List.pairwise_append.mp h
  have front_ : front.filter (fun x => x.1 ≠ k) = front := by
    rw [List.filter_eq_self]
    intro x member
    simpa using (across x member (k, v) List.mem_cons_self).ne
  have back_ : back.filter (fun x => x.1 ≠ k) = back := by
    rw [List.filter_eq_self]
    intro x member
    simpa using ((List.pairwise_cons.mp rest).1 x member).ne'
  rw [SortedMap.erase, List.filter_append, List.filter_cons_of_neg (by simp), front_, back_]

end

end SortedMap
