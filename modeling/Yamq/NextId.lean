import Yamq.Lib.CyclicSearch

/-! The search of `TimerQueueBase::nextId`, `Server::nextId` and `multi::Server::nextId`, with signed
arithmetic that wraps. They differ in the width of an id and in what replaces a negative one. -/
namespace Yamq
open CyclicSearch

variable {w : Nat}

def nextIdLoop (reset : BitVec w) (taken : BitVec w → Bool) : Nat → BitVec w → Option (BitVec w)
  | 0, _ => none
  | turns + 1, id =>
    let id := if id.toInt < 0 then reset else id
    if taken id then nextIdLoop reset taken turns (id + 1) else some id

/-- As many turns as there are numbers that are not negative. -/
def fullRound (w : Nat) : Nat := 2 ^ (w - 1)

variable {reset id cursor : BitVec w} {taken : BitVec w → Bool} {turns : Nat}

theorem nextIdLoop_eq_search :
    nextIdLoop reset taken turns cursor =
      search (successor reset) taken turns (startOver reset cursor) := by
  induction turns generalizing cursor with
  | zero => rfl
  | succ turns ih =>
    rw [nextIdLoop, search, ih]
    rfl

theorem nextIdLoop_free (found : nextIdLoop reset taken turns cursor = some id) : taken id = false :=
  search_free (nextIdLoop_eq_search.symm.trans found)

theorem nextIdLoop_nonneg (sign : 0 ≤ reset.toInt)
    (found : nextIdLoop reset taken turns cursor = some id) : 0 ≤ id.toInt := by
  rw [nextIdLoop_eq_search] at found
  exact search_invariant (P := fun x => 0 ≤ x.toInt) (fun x _ => startOver_nonneg sign (x + 1))
    (startOver_nonneg sign cursor) found

theorem nextIdLoop_more {more : Nat} (found : nextIdLoop reset taken turns cursor = some id)
    (enough : turns ≤ more) : nextIdLoop reset taken more cursor = some id := by
  rw [nextIdLoop_eq_search] at found ⊢
  exact search_more found enough

/-- A full round ends the search when a value from the reset value on is free. -/
theorem nextIdLoop_returns (wide : 0 < w) (sign : 0 ≤ reset.toInt) {v : BitVec w} (positive : 0 < v.toInt)
    (low : reset.toNat ≤ 1) (free : taken v = false) (cursor : BitVec w) :
    ∃ id, nextIdLoop reset taken (fullRound w) cursor = some id := by
  have above : reset.toNat ≤ v.toNat := by
    have nonzero : v.toNat ≠ 0 := by
      intro zero
      rw [BitVec.eq_of_toNat_eq (zero.trans (BitVec.toNat_ofNat 0 w ▸ (Nat.zero_mod _).symm)),
        BitVec.toInt_zero] at positive
      exact Int.lt_irrefl 0 positive
    omega
  obtain ⟨k, within, reached⟩ :=
    round (startOver_nonneg sign cursor) (Int.le_of_lt positive) above wide
  have even := two_pow_even wide
  rw [nextIdLoop_eq_search]
  exact search_ends (k := k) (by rw [reached, free]) (by rw [fullRound]; omega)

end Yamq
