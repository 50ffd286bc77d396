import Mathlib.Data.Finmap

/-! An array of entries with distinct keys, next to a map from each key to the index of its entry.
An entry is removed by swapping it with the last one. -/
namespace IndexedArray

universe u v

variable {κ : Type u} {ε : Type v} [DecidableEq κ] {key : ε → κ} {entries entries' : Array ε}
  {index : Finmap fun _ : κ => Nat} {k : κ} {i : Nat} {e back : ε}

/-- The map holds the index of each entry under its key, and nothing else. -/
def Exact (key : ε → κ) (entries : Array ε) (index : Finmap fun _ : κ => Nat) : Prop :=
  ∀ k i, index.lookup k = some i ↔ entries[i]?.map key = some k

theorem Exact.empty : Exact key #[] ∅ := by
  intro k i
  simp

theorem Exact.entry (h : Exact key entries index) (here : index.lookup k = some i) :
    ∃ e, entries[i]? = some e ∧ key e = k :=
  Option.map_eq_some_iff.mp ((h k i).mp here)

theorem Exact.lookup (h : Exact key entries index) (at_ : entries[i]? = some e) :
    index.lookup (key e) = some i :=
  (h (key e) i).mpr (by rw [at_, Option.map_some])

theorem Exact.inside (h : Exact key entries index) (here : index.lookup k = some i) :
    i < entries.size := by
  obtain ⟨e, at_, -⟩ := h.entry here
  exact (Array.getElem?_eq_some_iff.mp at_).1

/-- Replacing entries by others under the same keys. -/
theorem Exact.congr (h : Exact key entries index)
    (same : ∀ i : Nat, entries'[i]?.map key = entries[i]?.map key) : Exact key entries' index := by
  intro k i
  rw [same]
  exact h k i

theorem Exact.set (h : Exact key entries index) (here : index.lookup (key e) = some i) :
    Exact key (entries.setIfInBounds i e) index := by
  refine h.congr fun j => ?_
  by_cases at_ : i = j
  · subst at_
    rw [Array.getElem?_setIfInBounds_self_of_lt (h.inside here), (h _ _).mp here, Option.map_some]
  · rw [Array.getElem?_setIfInBounds_ne at_]

theorem Exact.push (h : Exact key entries index) (absent : index.lookup (key e) = none) :
    Exact key (entries.push e) (index.insert (key e) entries.size) := by
  intro k i
  rw [Array.getElem?_push]
  by_cases new : k = key e
  · subst new
    rw [Finmap.lookup_insert]
    by_cases last : i = entries.size
    · rw [if_pos last, last, Option.map_some]
      exact iff_of_true rfl rfl
    · rw [if_neg last, ← h, absent]
      exact iff_of_false (fun eq => last (Option.some.inj eq).symm) (Option.some_ne_none i).symm
  · rw [Finmap.lookup_insert_of_ne _ new, h]
    by_cases last : i = entries.size
    · rw [if_pos last, last, Array.getElem?_eq_none (Nat.le_refl _), Option.map_none, Option.map_some]
      exact iff_of_false (Option.some_ne_none k).symm fun eq => new (Option.some.inj eq).symm
    · rw [if_neg last]

theorem Exact.key_ne (h : Exact key entries index) {j k : κ} {i : Nat}
    (here : index.lookup k = some i) (other : j ≠ k) : entries[i]?.map key ≠ some j := by
  intro at_
  exact other (Option.some.inj (at_.symm.trans ((h k i).mp here)))

theorem Exact.index_ne (h : Exact key entries index) {k : κ} {i j : Nat}
    (here : index.lookup k = some i) (other : j ≠ i) : entries[j]?.map key ≠ some k := by
  intro at_
  exact other (Option.some.inj (((h k j).mpr at_).symm.trans here))

theorem Exact.pop (h : Exact key entries index) (here : index.lookup k = some (entries.size - 1)) :
    Exact key entries.pop (index.erase k) := by
  intro j i
  have inside := h.inside here
  rw [Array.getElem?_pop]
  by_cases before : i < entries.size - 1
  · rw [if_pos before]
    by_cases gone : j = k
    · subst gone
      rw [Finmap.lookup_erase]
      exact iff_of_false (Option.some_ne_none i).symm (h.index_ne here (by omega))
    · rw [Finmap.lookup_erase_ne gone, h]
  · rw [if_neg before, Option.map_none]
    refine iff_of_false (fun there => ?_) (Option.some_ne_none j).symm
    by_cases gone : j = k
    · subst gone
      rw [Finmap.lookup_erase] at there
      exact Option.some_ne_none i there.symm
    · rw [Finmap.lookup_erase_ne gone] at there
      have within := h.inside there
      obtain rfl : i = entries.size - 1 := by omega
      exact h.key_ne here gone ((h j _).mp there)

theorem mem_of_mem_pop (mem : e ∈ entries.pop) : e ∈ entries := by
  obtain ⟨j, at_⟩ := Array.getElem?_of_mem mem
  rw [Array.getElem?_pop] at at_
  split at at_
  · exact Array.mem_of_getElem? at_
  · cases at_

theorem getElem?_swap_pop (last : entries.back? = some back) (inside : i < entries.size)
    (apart : i ≠ entries.size - 1) (j : Nat) :
    (entries.swapIfInBounds (entries.size - 1) i).pop[j]? =
      if j = i then some back else if j < entries.size - 1 then entries[j]? else none := by
  have final : entries.size - 1 < entries.size := by omega
  rw [Array.back?_eq_getElem?, Array.getElem?_eq_getElem final] at last
  rw [Array.getElem?_pop, Array.size_swapIfInBounds, Array.swapIfInBounds_def, dif_pos final,
    dif_pos inside, Array.getElem?_swap]
  by_cases here : j = i
  · have before : j < entries.size - 1 := by omega
    rw [if_pos here, if_pos before, if_pos here.symm, last]
  · rw [if_neg here, if_neg (Ne.symm here)]
    by_cases before : j < entries.size - 1
    · rw [if_pos before, if_pos before, if_neg (by omega)]
    · rw [if_neg before, if_neg before]

theorem mem_of_mem_swap_pop (last : entries.back? = some back) (inside : i < entries.size)
    (apart : i ≠ entries.size - 1) (mem : e ∈ (entries.swapIfInBounds (entries.size - 1) i).pop) :
    e ∈ entries := by
  obtain ⟨j, at_⟩ := Array.getElem?_of_mem mem
  rw [getElem?_swap_pop last inside apart] at at_
  split at at_
  · cases at_
    rw [Array.back?_eq_getElem?] at last
    exact Array.mem_of_getElem? last
  · split at at_
    · exact Array.mem_of_getElem? at_
    · cases at_

/-- The entry of `k` leaves the array and the last one takes its place. -/
theorem Exact.swapRemove (h : Exact key entries index) (here : index.lookup k = some i)
    (last : entries.back? = some back) (apart : i ≠ entries.size - 1) :
    Exact key (entries.swapIfInBounds (entries.size - 1) i).pop
      ((index.insert (key back) i).erase k) := by
  have behind : index.lookup (key back) = some (entries.size - 1) :=
    h.lookup (by rw [← last, Array.back?_eq_getElem?])
  have moved : key back ≠ k := by
    intro same
    rw [same, here] at behind
    exact apart (Option.some.inj behind)
  intro j m
  rw [getElem?_swap_pop last (h.inside here) apart]
  by_cases hole : m = i
  · rw [if_pos hole, Option.map_some, hole]
    by_cases gone : j = k
    · rw [gone, Finmap.lookup_erase]
      exact iff_of_false (Option.some_ne_none i).symm fun eq => moved (Option.some.inj eq)
    · rw [Finmap.lookup_erase_ne gone]
      by_cases new : j = key back
      · rw [new, Finmap.lookup_insert]
        exact iff_of_true rfl rfl
      · rw [Finmap.lookup_insert_of_ne _ new, h]
        exact iff_of_false (h.key_ne here gone) fun eq => new (Option.some.inj eq).symm
  · rw [if_neg hole]
    by_cases gone : j = k
    · rw [gone, Finmap.lookup_erase]
      refine iff_of_false (Option.some_ne_none m).symm ?_
      split
      · exact h.index_ne here hole
      · exact (Option.some_ne_none k).symm
    · rw [Finmap.lookup_erase_ne gone]
      by_cases new : j = key back
      · rw [new, Finmap.lookup_insert]
        refine iff_of_false (fun eq => hole (Option.some.inj eq).symm) ?_
        split
        · rename_i before
          exact h.index_ne behind (Nat.ne_of_lt before)
        · exact (Option.some_ne_none _).symm
      · rw [Finmap.lookup_insert_of_ne _ new]
        split
        · exact h j m
        · rename_i after
          refine iff_of_false (fun there => ?_) (Option.some_ne_none j).symm
          have within := h.inside there
          obtain rfl : m = entries.size - 1 := by omega
          exact h.key_ne behind new ((h j _).mp there)

theorem Exact.nodup (h : Exact key entries index) : (entries.toList.map key).Nodup := by
  rw [List.nodup_iff_injective_getElem]
  intro ⟨i, hi⟩ ⟨j, hj⟩ same
  simp only [List.length_map, Array.length_toList] at hi hj
  simp only [List.getElem_map, Array.getElem_toList] at same
  have first := h.lookup (Array.getElem?_eq_getElem hi)
  have second := h.lookup (Array.getElem?_eq_getElem hj)
  rw [same, second] at first
  exact Fin.ext (Option.some.inj first).symm

theorem Exact.card (h : Exact key entries index) : index.keys.card = entries.size := by
  have keys : index.keys = (entries.toList.map key).toFinset := by
    ext k
    rw [Finmap.mem_keys, Finmap.mem_iff, List.mem_toFinset, List.mem_map]
    constructor
    · rintro ⟨i, here⟩
      obtain ⟨e, at_, named⟩ := h.entry here
      exact ⟨e, Array.mem_toList_iff.mpr (Array.mem_of_getElem? at_), named⟩
    · rintro ⟨e, mem, rfl⟩
      obtain ⟨i, at_⟩ := Array.getElem?_of_mem (Array.mem_toList_iff.mp mem)
      exact ⟨i, h.lookup at_⟩
  rw [keys, List.toFinset_card_of_nodup h.nodup, List.length_map, Array.length_toList]

end IndexedArray
