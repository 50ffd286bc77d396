import Yamq.Machine

/-! How `multi::Server` picks the loop and the number of a new connection. -/
namespace Yamq

/-- `_evd`, the main loop, `_evds`, the loops of the workers, and `_next_evd_id`. -/
structure Dispatchers where
  evd : Nat
  evds : List Nat
  nextEvdId : Nat
deriving DecidableEq, Repr

namespace Dispatchers

/-- `Start`: loop 0 is the main one. -/
def start (workerNum : Nat) : Dispatchers := ⟨0, (List.range workerNum).map (· + 1), 0⟩

def nextEvd (s : Dispatchers) : Except Fault (Nat × Dispatchers) :=
  if s.evds = [] then .ok (s.evd, s)
  else
    match s.evds[s.nextEvdId]? with
    | none => .error .outOfBounds
    | some evd =>
      let next := s.nextEvdId + 1
      .ok (evd, { s with nextEvdId := if s.evds.length ≤ next then 0 else next })

structure Valid (s : Dispatchers) : Prop where
  index : s.nextEvdId < s.evds.length ∨ s.nextEvdId = 0
  apart : s.evd ∉ s.evds

theorem start_valid (workerNum : Nat) : (start workerNum).Valid where
  index := .inr rfl
  apart := by simp [start]

/-- The main loop serves a connection exactly when there are no workers. -/
theorem nextEvd_spec {s : Dispatchers} (valid : s.Valid) :
    ∃ evd t, s.nextEvd = .ok (evd, t) ∧ t.Valid ∧ t.evds = s.evds ∧ t.evd = s.evd ∧
      (evd = s.evd ↔ s.evds = []) := by
  by_cases none : s.evds = []
  · exact ⟨s.evd, s, if_pos none, valid, rfl, rfl, iff_of_true rfl none⟩
  · have some_ := List.length_pos_iff.mpr none
    have inside : s.nextEvdId < s.evds.length := by
      rcases valid.index with inside | zero
      · exact inside
      · omega
    have found := List.getElem?_eq_getElem inside
    refine ⟨s.evds[s.nextEvdId],
      { s with nextEvdId := if s.evds.length ≤ s.nextEvdId + 1 then 0 else s.nextEvdId + 1 },
      ?_, ⟨?_, valid.apart⟩, rfl, rfl, ?_⟩
    · rw [nextEvd, if_neg none, found]
    · simp only
      split
      · exact .inr rfl
      · left
        omega
    · refine iff_of_false ?_ none
      intro same
      exact valid.apart (same ▸ List.getElem_mem inside)

end Dispatchers
end Yamq
