import Yamq.Timer.TimerQueue
import Yamq.Tcp.ServerRun
import Yamq.Tcp.ConnectionTable

/-! The ids that `AddTimer` and `newConnect` give, when signed arithmetic wraps, and the loops of
`TimerQueue` and `ServerRun`, in which an overflow has no outcome. -/
namespace Yamq

/-- The ids of a `TimerQueueBase`. -/
structure TimerIds where
  slot : BitVec 32 := 0
  ref : Finmap fun _ : BitVec 32 => Option Nat := ∅

namespace TimerIds

def taken (q : TimerIds) (id : BitVec 32) : Bool := id ∈ q.ref

def nextIdLoop (q : TimerIds) (turns : Nat) : Option (BitVec 32) :=
  Yamq.nextIdLoop 0 q.taken turns (q.slot + 1)

/-- What `AddTimer` does to the ids for the new object `timer`. -/
def addTimer (q : TimerIds) (timer : Nat) : Option (BitVec 32 × TimerIds) := do
  let id ← q.nextIdLoop (fullRound 32)
  return (id, { slot := id, ref := q.ref.insert id (some timer) })

end TimerIds

/-- The search returns, and what it returns is not negative and not in the table. -/
theorem nextIdLoop_fresh {w : Nat} {β : Type} (reset : BitVec w) (taken : BitVec w → Bool)
    {table : Finmap fun _ : BitVec w => β} (counts : ∀ id, taken id = true ↔ id ∈ table) (wide : 0 < w)
    (sign : 0 ≤ reset.toInt) (low : reset.toNat ≤ 1) (cursor : BitVec w)
    (free : ∃ v : BitVec w, 0 < v.toInt ∧ v ∉ table) :
    ∃ id, (∀ turns, fullRound w ≤ turns → nextIdLoop reset taken turns cursor = some id) ∧
      0 ≤ id.toInt ∧ id ∉ table := by
  obtain ⟨v, positive, absent⟩ := free
  have untaken : taken v = false := Bool.eq_false_iff.mpr fun there => absent ((counts v).mp there)
  obtain ⟨id, found⟩ := nextIdLoop_returns wide sign positive low untaken cursor
  refine ⟨id, fun turns enough => nextIdLoop_more found enough, nextIdLoop_nonneg sign found, ?_⟩
  intro there
  have untaken := nextIdLoop_free found
  rw [(counts id).mpr there] at untaken
  cases untaken

theorem insert_keeps {w : Nat} {β : Type} {table : Finmap fun _ : BitVec w => β} {id : BitVec w}
    (absent : id ∉ table) (entry : β) {key : BitVec w} (there : key ∈ table) :
    (table.insert id entry).lookup key = table.lookup key :=
  Finmap.lookup_insert_of_ne _ fun same => absent (same ▸ there)

/-- While a positive number is free the searches return, with an id that is not negative and not in
the table, so `AddTimer` and `newConnect` leave all entries that are there. -/
theorem ids_fresh :
    (∀ (q : TimerIds) (timer : Nat), (∃ v : BitVec 32, 0 < v.toInt ∧ v ∉ q.ref) →
      ∃ id, (∀ turns, fullRound 32 ≤ turns → q.nextIdLoop turns = some id) ∧
        0 ≤ id.toInt ∧ id ∉ q.ref ∧ ∃ t, q.addTimer timer = some (id, t) ∧
          t.ref.lookup id = some (some timer) ∧ ∀ key ∈ q.ref, t.ref.lookup key = q.ref.lookup key) ∧
    ∀ (kind : ServerKind) (s : ConnectionTable), (∃ v : BitVec 64, 0 < v.toInt ∧ v ∉ s.connections) →
      ∃ id, (∀ turns, fullRound 64 ≤ turns → s.nextIdLoop kind turns = some id) ∧
        0 ≤ id.toInt ∧ id ∉ s.connections ∧ ∃ t, s.newConnect kind = some t ∧
          t.connections.lookup id = some (some s.objects.length) ∧
          ∀ key ∈ s.connections, t.connections.lookup key = s.connections.lookup key := by
  constructor
  · intro q timer free
    obtain ⟨id, returns, sign, absent⟩ := nextIdLoop_fresh 0 q.taken
      (fun id => decide_eq_true_iff) (by decide) (by decide) (by decide) (q.slot + 1) free
    have found : q.nextIdLoop (fullRound 32) = some id := returns _ (Nat.le_refl _)
    have run : q.addTimer timer = some (id, { slot := id, ref := q.ref.insert id (some timer) }) := by
      rw [TimerIds.addTimer, found]
      rfl
    exact ⟨id, returns, sign, absent, _, run, Finmap.lookup_insert _, fun _ => insert_keeps absent _⟩
  · intro kind s free
    have low : (ConnectionTable.resetId kind).toNat ≤ 1 := by cases kind <;> decide
    have sign : 0 ≤ (ConnectionTable.resetId kind).toInt := by cases kind <;> decide
    obtain ⟨id, returns, sign, absent⟩ := nextIdLoop_fresh (ConnectionTable.resetId kind) s.taken
      (fun id => decide_eq_true_iff) (by decide) sign low s.nextId free
    have found : s.newId kind = some id := returns _ (Nat.le_refl _)
    have run : s.newConnect kind = some { s with
        nextId := id
        connections := s.connections.insert id (some s.objects.length)
        objects := s.objects ++ [id] } := by
      rw [ConnectionTable.newConnect, found]
      rfl
    exact ⟨id, returns, sign, absent, _, run, Finmap.lookup_insert _, fun _ => insert_keeps absent _⟩

/-- The cursors stand at the largest number, which is taken. -/
theorem ids_fresh_wrapped :
    (∃ id t, (⟨2147483646, (∅ : Finmap fun _ : BitVec 32 => Option Nat).insert 2147483647 (some 0)⟩ :
      TimerIds).addTimer 1 = some (id, t)) ∧
    ∃ t, ({ nextId := 9223372036854775807,
            connections := (∅ : Finmap fun _ : BitVec 64 => Option Nat).insert 9223372036854775807 none } :
      ConnectionTable).newConnect .multi = some t := by
  constructor
  · obtain ⟨id, -, -, -, t, run, -⟩ := ids_fresh.1
      ⟨2147483646, (∅ : Finmap fun _ : BitVec 32 => Option Nat).insert 2147483647 (some 0)⟩ 1
      ⟨1, by decide, by decide⟩
    exact ⟨id, t, run⟩
  · obtain ⟨-, -, -, -, t, run, -⟩ := ids_fresh.2 .multi
      { nextId := 9223372036854775807
        connections := (∅ : Finmap fun _ : BitVec 64 => Option Nat).insert 9223372036854775807 none }
      ⟨1, by decide, by decide⟩
    exact ⟨t, run⟩

/-! Where the arithmetic does not overflow, the loops agree. -/

theorem toInt_succ {w : Nat} {x : BitVec w} (wide : 1 < w) (fits : 2 * (x.toInt + 1) < 2 ^ w) :
    (x + 1).toInt = x.toInt + 1 := by
  have below := BitVec.le_two_mul_toInt (x := x)
  have one : (1 : BitVec w).toInt = 1 := BitVec.toInt_one wide
  rw [BitVec.toInt_add, one]
  apply Int.bmod_eq_of_le
  · push_cast
    omega
  · push_cast
    omega

/-- `TimerQueue.nextIdLoop` from a 32-bit cursor. -/
theorem timerQueue_nextIdLoop {ref : List (Int × Option Nat)} {fuel : Nat} {x : BitVec 32} {id : Int}
    (found : TimerQueue.nextIdLoop ref fuel x.toInt = .ok id) :
    ∃ r : BitVec 32, r.toInt = id ∧
      nextIdLoop 0 (fun b => (ref.lookup b.toInt).isSome) fuel x = some r := by
  induction fuel generalizing x with
  | zero => cases found
  | succ fuel ih =>
    have start : (if x.toInt < 0 then 0 else x.toInt) =
        (if x.toInt < 0 then (0 : BitVec 32) else x).toInt := by
      split <;> rfl
    rw [TimerQueue.nextIdLoop, start] at found
    rw [nextIdLoop]
    generalize (if x.toInt < 0 then (0 : BitVec 32) else x) = y at found ⊢
    split at found
    · rename_i taken
      rw [if_pos taken]
      obtain ⟨n, next, found⟩ := bind_eq_ok.mp found
      obtain ⟨rfl, -, fits⟩ := addInt_eq_ok.mp next
      have up : (y + 1).toInt = y.toInt + 1 := toInt_succ (by decide) (by omega)
      rw [← up] at found
      exact ih found
    · rename_i free
      rw [if_neg free]
      cases found
      exact ⟨y, rfl, rfl⟩

/-- `ServerRun.nextIdLoop` from a 64-bit cursor. -/
theorem serverRun_nextIdLoop {taken : List Int} {fuel : Nat} {x : BitVec 64} {id : Int}
    (found : ServerRun.nextIdLoop taken fuel x.toInt = .ok id) :
    ∃ r : BitVec 64, r.toInt = id ∧
      nextIdLoop (ConnectionTable.resetId .multi) (fun b => b.toInt ∈ taken) fuel x = some r := by
  induction fuel generalizing x with
  | zero => cases found
  | succ fuel ih =>
    have start : (if x.toInt < 0 then 1 else x.toInt) =
        (if x.toInt < 0 then (1 : BitVec 64) else x).toInt := by
      split <;> rfl
    rw [ServerRun.nextIdLoop, start] at found
    rw [nextIdLoop, ConnectionTable.resetId]
    generalize (if x.toInt < 0 then (1 : BitVec 64) else x) = y at found ⊢
    split at found
    · rename_i taken
      rw [if_pos (decide_eq_true taken)]
      split at found
      · rename_i fits
        have up : (y + 1).toInt = y.toInt + 1 := toInt_succ (by decide) (by omega)
        rw [← up] at found
        exact ih found
      · cases found
    · rename_i free
      rw [if_neg fun there => free (of_decide_eq_true there)]
      cases found
      exact ⟨y, rfl, rfl⟩

end Yamq
