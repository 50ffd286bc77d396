import Yamq.Lib.Transition
import Yamq.Timer.TimerQueue
import Mathlib.Algebra.Group.Nat.Defs
import Mathlib.Algebra.Group.Int.Defs

/-! What each function of the timer queue changes, whatever the tree is. -/
namespace Yamq

theorem lift_eq_ok {α : Type} {x : Except Fault α} {a : α} : lift x = .ok a ↔ x = .ok a := by
  cases x <;> simp [lift]

theorem lift_ne_deleted {α : Type} (x : Except Fault α) : lift x ≠ .error .deletedTimer := by
  cases x <;> simp [lift]

theorem bind_ne_error {ε α β : Type} {x : Except ε α} {f : α → Except ε β} {e : ε}
    (first : x ≠ .error e) (rest : ∀ a, x = .ok a → f a ≠ .error e) : (x >>= f) ≠ .error e := by
  cases x with
  | ok a => exact rest a rfl
  | error e' =>
    rw [error_bind]
    exact fun same => first (congrArg _ (Except.error.inj same))

theorem toLongLong_cases (n : UInt64) : n.toNat < 2 ^ 63 ∧ toLongLong n = n.toNat ∨
    2 ^ 63 ≤ n.toNat ∧ toLongLong n = n.toNat - 2 ^ 64 := by
  have value : toLongLong n = if 2 * n.toNat < 2 ^ 64 then (n.toNat : Int) else
      n.toNat - (2 ^ 64 : Nat) := BitVec.toInt_eq_toNat_cond n.toBitVec
  split at value
  · exact .inl ⟨by omega, value⟩
  · exact .inr ⟨by omega, value⟩

theorem toLongLong_small {n : UInt64} (small : n.toNat < 2 ^ 63) : toLongLong n = n.toNat := by
  rcases toLongLong_cases n with ⟨_, value⟩ | ⟨large, _⟩
  · exact value
  · exact absurd small (Nat.not_lt.mpr large)

namespace TimerQueue

variable {T N : Type} {q q' : TimerQueue T N} {p : Nat} {timer : Timer N}

theorem get_eq_ok : q.get p = .ok timer ↔ q.timers p = some timer := by
  unfold get
  cases q.timers p <;> simp

theorem get_of_some (here : q.timers p = some timer) : q.get p = .ok timer := get_eq_ok.mpr here

@[simp] theorem put_timers (q : TimerQueue T N) (p : Nat) (t : Option (Timer N)) :
    (q.put p t).timers = Function.update q.timers p t := rfl

@[simp] theorem put_tree (q : TimerQueue T N) (p : Nat) (t : Option (Timer N)) :
    (q.put p t).tree = q.tree := rfl

@[simp] theorem put_ref (q : TimerQueue T N) (p : Nat) (t : Option (Timer N)) :
    (q.put p t).ref = q.ref := rfl

@[simp] theorem put_allocated (q : TimerQueue T N) (p : Nat) (t : Option (Timer N)) :
    (q.put p t).allocated = q.allocated := rfl

theorem live_put {timer : Timer N} {x : Nat} (live : (q.timers x).isSome) :
    ((q.put p (some timer)).timers x).isSome := by
  rw [put_timers]
  by_cases same : x = p
  · rw [same, Function.update_self]
    rfl
  · rwa [Function.update_of_ne same]

/-- An id that `nextId` returns is not in the table. -/
theorem nextIdLoop_fresh {ref : List (Int × Option Nat)} {fuel : Nat} {next id : Int}
    (found : nextIdLoop ref fuel next = .ok id) : ref.lookup id = none := by
  induction fuel generalizing next with
  | zero => cases found
  | succ fuel ih =>
    unfold nextIdLoop at found
    generalize (if next < 0 then 0 else next) = candidate at found
    dsimp only at found
    split at found
    · obtain ⟨_, _, found⟩ := bind_eq_ok.mp found
      exact ih found
    · rename_i free
      cases found
      exact Option.not_isSome_iff_eq_none.mp free

theorem nextId_fresh {id : Int} (found : q.nextId = .ok id) : q.ref.lookup id = none := by
  obtain ⟨_, _, found⟩ := bind_eq_ok.mp found
  exact nextIdLoop_fresh found

/-- The new timer of `AddTimer`. -/
def newTimer (id : Int) (time interval : UInt64) (cb : Nat) : Timer N :=
  { id, time, interval := interval.toInt64, elapse := interval.toInt64, cb }

/-- The queue with a new object, which its id names. -/
def created (q : TimerQueue T N) (timer : Timer N) : TimerQueue T N :=
  { q.put q.allocated (some timer) with
    allocated := q.allocated + 1, slot := timer.id, ref := (timer.id, some q.allocated) :: q.ref }

theorem created_lookup (q : TimerQueue T N) (timer : Timer N) (id : Int) :
    (q.created timer).ref.lookup id =
      if id = timer.id then some (some q.allocated) else q.ref.lookup id := by
  simp only [created, List.lookup_cons]
  split
  · rename_i same
    rw [if_pos (beq_iff_eq.mp same)]
  · rename_i other
    rw [if_neg (by simpa using other)]

theorem created_timers (q : TimerQueue T N) (timer : Timer N) (p : Nat) :
    (q.created timer).timers p = if p = q.allocated then some timer else q.timers p := by
  by_cases same : p = q.allocated
  · rw [if_pos same, same]
    exact Function.update_self ..
  · rw [if_neg same]
    exact Function.update_of_ne same ..

theorem createTimer_ok {time interval : UInt64} {cb : Nat}
    (run : q.createTimer time interval cb = .ok (q', p)) : ∃ id, q.ref.lookup id = none ∧
      p = q.allocated ∧ q' = q.created (newTimer id time interval cb) := by
  obtain ⟨id, found, done⟩ := bind_eq_ok.mp run
  cases done
  exact ⟨id, nextId_fresh (lift_eq_ok.mp found), rfl, rfl⟩

/-- The expiry that `addTimer` computes. -/
def expireOf (q : TimerQueue T N) (timer : Timer N) : UInt64 := q.clock - q.ownEpoch + timer.time

/-- The queue with a timer in its tree. -/
def placed (q : TimerQueue T N) (p : Nat) (timer : Timer N) (tree : T) (n : N) (fd : Timerfd) :
    TimerQueue T N :=
  { q.put p (some { timer with expire := q.expireOf timer, attach := some n }) with
    tree, timerfd := fd }

@[simp] theorem placed_timers (q : TimerQueue T N) (p : Nat) (timer : Timer N) (tree : T) (n : N)
    (fd : Timerfd) : (q.placed p timer tree n fd).timers = Function.update q.timers p
      (some { timer with expire := q.expireOf timer, attach := some n }) := rfl

variable [TimerTree T N]

open TimerTree

/-- The tree with a timer's node, and the timerfd after the test for the least one. -/
structure Inserted (q : TimerQueue T N) (p : Nat) (expire : UInt64) (tree : T) (n : N)
    (fd : Timerfd) : Prop where
  inserted : insertTimer q.tree (toLongLong expire) p = .ok (tree, n)
  rearmed : ∃ least e, minNode tree = .ok least ∧ entryOf tree least = .ok e ∧
    fd = if toLongLong expire ≤ e.key then .arm (q.ownEpoch + expire) q.clock else q.timerfd

theorem addTimer_ok (run : q.addTimer p = .ok q') : ∃ timer tree n fd, q.timers p = some timer ∧
    Inserted q p (q.expireOf timer) tree n fd ∧ q' = q.placed p timer tree n fd := by
  unfold addTimer at run
  obtain ⟨timer, here, run⟩ := bind_eq_ok.mp run
  obtain ⟨⟨tree, n⟩, inserted, run⟩ := bind_eq_ok.mp run
  obtain ⟨least, min, run⟩ := bind_eq_ok.mp run
  obtain ⟨e, entry, run⟩ := bind_eq_ok.mp run
  have found := get_eq_ok.mp here
  have placed := lift_eq_ok.mp inserted
  have first := lift_eq_ok.mp min
  have read := lift_eq_ok.mp entry
  split at run
  · rename_i least_
    cases run
    exact ⟨timer, tree, n, _, found, ⟨placed, least, e, first, read, (if_pos least_).symm⟩, rfl⟩
  · rename_i later
    cases run
    exact ⟨timer, tree, n, _, found, ⟨placed, least, e, first, read, (if_neg later).symm⟩, rfl⟩

theorem detach_ok {attach : Option N} (run : q.detach attach = .ok q') :
    ∃ tree, q' = { q with tree } ∧ ∀ n, attach = some n → deleteNode q.tree n = .ok tree := by
  cases attach with
  | none =>
    cases run
    exact ⟨q.tree, rfl, nofun⟩
  | some n =>
    obtain ⟨tree, deleted, done⟩ := bind_eq_ok.mp run
    cases done
    refine ⟨tree, rfl, fun m same => ?_⟩
    rw [← Option.some.inj same]
    exact lift_eq_ok.mp deleted

/-- `cancelTimer` knows nothing of the id, or takes the timer out of the tree and deletes it. -/
theorem cancelTimer_cases {id : Int} {found : Bool} (run : q.cancelTimer id = .ok (q', found)) :
    (∃ ref, q' = { q with ref } ∧ (∀ id p, ref.lookup id = some (some p) ↔
      q.ref.lookup id = some (some p)) ∧ ∀ p, q.ref.lookup id ≠ some (some p)) ∨
    ∃ p timer tree, q.ref.lookup id = some (some p) ∧ q.timers p = some timer ∧
      (∀ n, timer.attach = some n → deleteNode q.tree n = .ok tree) ∧
      q' = { q with tree }.put p none := by
  unfold cancelTimer at run
  split at run
  · rename_i unknown
    cases run
    refine .inl ⟨_, rfl, fun id' p => ?_, by simp [unknown]⟩
    rw [List.lookup_cons]
    split
    · rename_i same
      rw [beq_iff_eq.mp same, unknown]
      simp
    · rfl
  · rename_i known
    cases run
    exact .inl ⟨_, rfl, fun _ _ => Iff.rfl, by simp [known]⟩
  · rename_i p known
    obtain ⟨timer, here, run⟩ := bind_eq_ok.mp run
    obtain ⟨_, detached, done⟩ := bind_eq_ok.mp run
    obtain ⟨tree, rfl, deleted⟩ := detach_ok detached
    cases done
    exact .inr ⟨p, timer, tree, known, get_eq_ok.mp here, deleted, rfl⟩

/-- The first loop of `PerTick` changes the tree, and the attachment of the timers it takes. -/
structure Collected (q q' : TimerQueue T N) (taken : List Nat) (now : UInt64) : Prop where
  rest : q' = { q with tree := q'.tree, timers := q'.timers }
  due : ∀ p ∈ taken, ∃ timer, q.timers p = some timer ∧ timer.expire < now ∧
    q'.timers p = some { timer with attach := none }
  others : ∀ p, p ∉ taken → q'.timers p = q.timers p

theorem collect_ok {now : UInt64} {fuel : Nat} {expired batch : List Nat}
    (run : collect now fuel q expired = .ok (q', batch)) :
    ∃ taken, batch = expired ++ taken ∧ Collected q q' taken now := by
  induction fuel generalizing q expired with
  | zero => cases run
  | succ fuel ih =>
    unfold collect at run
    obtain ⟨n, _, run⟩ := bind_eq_ok.mp run
    have stops (ends : (.ok (q, expired) : Except Halt (TimerQueue T N × List Nat)) = .ok (q', batch)) :
        ∃ taken, batch = expired ++ taken ∧ Collected q q' taken now := by
      cases ends
      exact ⟨[], (List.append_nil _).symm, rfl, nofun, fun _ _ => rfl⟩
    split at run
    · exact stops run
    · obtain ⟨e, _, run⟩ := bind_eq_ok.mp run
      obtain ⟨timer, here, run⟩ := bind_eq_ok.mp run
      generalize e.val = p at here run
      split at run
      · rename_i due
        obtain ⟨tree, _, run⟩ := bind_eq_ok.mp run
        obtain ⟨taken, rfl, collected⟩ := ih run
        have first : q'.timers p = some { timer with attach := none } := by
          by_cases again : p ∈ taken
          · obtain ⟨timer', here', _, left⟩ := collected.due p again
            rw [put_timers, Function.update_self, Option.some.injEq] at here'
            rw [left, ← here']
          · rw [collected.others p again, put_timers, Function.update_self]
        refine ⟨p :: taken, by simp, ?_, ?_, ?_⟩
        · rw [collected.rest]
          rfl
        · intro x member
          by_cases same : x = p
          · rw [same]
            exact ⟨timer, get_eq_ok.mp here, due, first⟩
          · obtain ⟨timer', here', due', left⟩ :=
              collected.due x ((List.mem_cons.mp member).resolve_left same)
            rw [put_timers, Function.update_of_ne same] at here'
            exact ⟨timer', here', due', left⟩
        · intro x outside
          rw [List.mem_cons, not_or] at outside
          rw [collected.others x outside.2, put_timers, Function.update_of_ne outside.1]
      · exact stops run

theorem rearm_ok (run : q.rearm = .ok q') :
    ∃ fd, q' = { q with timerfd := fd } := by
  obtain ⟨expire, _, run⟩ := bind_eq_ok.mp run
  split at run
  · cases run
    exact ⟨_, rfl⟩
  · cases run
    exact ⟨q.timerfd, rfl⟩

/-! Which calls use no deleted timer. -/

theorem addTimer_live (live : (q.timers p).isSome) : q.addTimer p ≠ .error .deletedTimer := by
  obtain ⟨timer, here⟩ := Option.isSome_iff_exists.mp live
  unfold addTimer
  rw [get_of_some here, ok_bind]
  refine bind_ne_error (lift_ne_deleted _) fun _ _ => ?_
  refine bind_ne_error (lift_ne_deleted _) fun _ _ => ?_
  refine bind_ne_error (lift_ne_deleted _) fun _ _ => ?_
  split <;> exact nofun

theorem callAddTimer_live (time interval : UInt64) (cb : Nat) :
    q.callAddTimer time interval cb ≠ .error .deletedTimer := by
  refine bind_ne_error (bind_ne_error (lift_ne_deleted _) fun _ _ => nofun) fun ⟨mid, p⟩ run => ?_
  obtain ⟨id, _, rfl, rfl⟩ := createTimer_ok run
  apply addTimer_live
  simp [created]

theorem cancelTimer_live {id : Int} (live : ∀ p, q.ref.lookup id = some (some p) → (q.timers p).isSome) :
    q.cancelTimer id ≠ .error .deletedTimer := by
  unfold cancelTimer
  split
  · exact nofun
  · exact nofun
  · rename_i p known
    obtain ⟨timer, here⟩ := Option.isSome_iff_exists.mp (live p known)
    rw [get_of_some here, ok_bind]
    refine bind_ne_error ?_ fun _ _ => nofun
    cases timer.attach with
    | none => exact nofun
    | some n => exact bind_ne_error (lift_ne_deleted _) fun _ _ => nofun

end TimerQueue

namespace TimerLoop

open TimerQueue TimerTree

variable {T N : Type} [TimerTree T N] {l l' : TimerLoop T N} {op : TimerOp}

/-- What a step does: one case for each way through the code. -/
inductive Effect (l : TimerLoop T N) : TimerOp → TimerLoop T N → Prop where
  | clock (now : UInt64) : Effect l (.clock now)
      { l with queue := { l.queue with clock := now, timerfd := l.queue.timerfd.tick now } }
  | added {time interval : UInt64} {cb : Nat} {id : Int} {tree : T} {n : N} {fd : Timerfd}
      (calls : l.pc.calls) (free : l.queue.ref.lookup id = none)
      (inserted : Inserted (l.queue.created (newTimer id time interval cb)) l.queue.allocated
        (l.queue.expireOf (newTimer (N := N) id time interval cb)) tree n fd) :
      Effect l (.addTimer time interval cb) { l with
        queue := (l.queue.created (newTimer id time interval cb)).placed l.queue.allocated
          (newTimer id time interval cb) tree n fd
        history := l.history ++ [.added l.queue.allocated] }
  | unknown {id : Int} {ref : List (Int × Option Nat)} (calls : l.pc.calls)
      (same : ∀ id p, ref.lookup id = some (some p) ↔ l.queue.ref.lookup id = some (some p))
      (nothing : ∀ p, l.queue.ref.lookup id ≠ some (some p)) :
      Effect l (.cancelTimer id) { l with queue := { l.queue with ref } }
  | cancelled {id : Int} {p : Nat} {timer : Timer N} {tree : T} (calls : l.pc.calls)
      (known : l.queue.ref.lookup id = some (some p)) (here : l.queue.timers p = some timer)
      (deleted : ∀ n, timer.attach = some n → deleteNode l.queue.tree n = .ok tree) :
      Effect l (.cancelTimer id) { l with
        queue := { l.queue with tree }.put p none
        history := l.history ++ [.cancelled p] }
  | ticked {q : TimerQueue T N} {batch : List Nat} (idle : l.pc = .idle)
      (run : l.queue.expiredTimers = .ok (q, batch)) :
      Effect l .perTick { l with queue := q, pc := .visiting batch false }
  | read {q : TimerQueue T N} {batch : List Nat} (idle : l.pc = .idle)
      (readable : l.queue.timerfd = .readable)
      (run : { l.queue with timerfd := .off }.expiredTimers = .ok (q, batch)) :
      Effect l .handleRead { l with queue := q, pc := .visiting batch true }
  | finished (pc : l.pc = .visiting [] false) : Effect l .visit { l with pc := .idle }
  | rearmed {q : TimerQueue T N} (pc : l.pc = .visiting [] true) (run : l.queue.rearm = .ok q) :
      Effect l .visit { l with queue := q, pc := .idle }
  | fired {p : Nat} {rest : List Nat} {handling : Bool} {timer : Timer N}
      (pc : l.pc = .visiting (p :: rest) handling) (here : l.queue.timers p = some timer)
      (more : 0 < timer.elapse) :
      Effect l .visit ⟨l.queue.put p (some { timer with elapse := timer.elapse - 1 }),
        .calling p rest handling, l.history ++ [.fired p]⟩
  | dropped {p : Nat} {rest : List Nat} {handling : Bool} {timer : Timer N}
      (pc : l.pc = .visiting (p :: rest) handling) (here : l.queue.timers p = some timer)
      (last : ¬ 0 < timer.elapse) :
      Effect l .visit { l with queue := l.queue.put p none, pc := .visiting rest handling }
  | readded {p : Nat} {rest : List Nat} {handling : Bool} {timer : Timer N} {tree : T} {n : N}
      {fd : Timerfd} (pc : l.pc = .calling p rest handling) (here : l.queue.timers p = some timer)
      (more : 0 < timer.elapse)
      (inserted : Inserted l.queue p (l.queue.expireOf timer) tree n fd) :
      Effect l .return_
        { l with queue := l.queue.placed p timer tree n fd, pc := .visiting rest handling }
  | ended {p : Nat} {rest : List Nat} {handling : Bool} {timer : Timer N}
      (pc : l.pc = .calling p rest handling) (here : l.queue.timers p = some timer)
      (last : ¬ 0 < timer.elapse) :
      Effect l .return_ { l with queue := l.queue.put p none, pc := .visiting rest handling }

theorem step_effect (steps : Steps l op l') : Effect l op l' := by
  have taken := steps_iff.mp steps
  clear steps
  cases op with
  | clock now =>
    cases taken
    exact .clock now
  | addTimer time interval cb =>
    simp only [step] at taken
    split at taken
    · rename_i calls
      obtain ⟨q', run, done⟩ := bind_eq_ok.mp (Option.some.inj taken)
      cases done
      obtain ⟨⟨mid, p⟩, made, placed⟩ := bind_eq_ok.mp run
      obtain ⟨id, free, rfl, rfl⟩ := createTimer_ok made
      obtain ⟨timer, tree, n, fd, here, inserted, rfl⟩ := addTimer_ok placed
      rw [created_timers, if_pos rfl, Option.some.injEq] at here
      cases here
      exact .added calls free inserted
    · cases taken
  | cancelTimer id =>
    simp only [step] at taken
    split at taken
    · rename_i calls
      obtain ⟨q', run, done⟩ := bind_eq_ok.mp (Option.some.inj taken)
      obtain ⟨⟨q', found⟩, cancels, same⟩ := bind_eq_ok.mp run
      cases same
      rcases cancelTimer_cases cancels with ⟨ref, rfl, same, nothing⟩ |
        ⟨p, timer, tree, known, here, deleted, rfl⟩
      · have events : l.cancelEvents id = [] := by
          unfold cancelEvents
          split
          · rename_i p known
            exact absurd known (nothing p)
          · rfl
        rw [events, List.append_nil] at done
        cases done
        exact .unknown calls same nothing
      · have events : l.cancelEvents id = [.cancelled p] := by
          simp only [cancelEvents, known]
        rw [events] at done
        cases done
        exact .cancelled calls known here deleted
    · cases taken
  | perTick =>
    simp only [step] at taken
    split at taken
    · rename_i idle
      obtain ⟨⟨q', batch⟩, run, done⟩ := bind_eq_ok.mp (Option.some.inj taken)
      cases done
      exact .ticked idle run
    · cases taken
  | handleRead =>
    simp only [step] at taken
    split at taken
    · rename_i idle
      obtain ⟨mid, read, rest⟩ := bind_eq_ok.mp (Option.some.inj taken)
      obtain ⟨⟨q', batch⟩, run, done⟩ := bind_eq_ok.mp rest
      cases done
      unfold readTimerfd at read
      split at read
      · rename_i readable
        cases read
        exact .read idle readable run
      · cases read
    · cases taken
  | visit =>
    obtain ⟨q, pc, history⟩ := l
    cases pc with
    | idle => cases taken
    | calling => cases taken
    | visiting rest handling =>
      cases rest with
      | nil =>
        cases handling with
        | false =>
          cases taken
          exact .finished rfl
        | true =>
          obtain ⟨q', run, done⟩ := bind_eq_ok.mp (Option.some.inj taken)
          cases done
          exact .rearmed rfl run
      | cons p rest =>
        obtain ⟨timer, read, run⟩ := bind_eq_ok.mp (Option.some.inj taken)
        split at run
        · rename_i more
          cases run
          exact .fired rfl (get_eq_ok.mp read) more
        · rename_i last
          cases run
          exact .dropped rfl (get_eq_ok.mp read) last
  | return_ =>
    obtain ⟨q, pc, history⟩ := l
    cases pc with
    | idle => cases taken
    | visiting => cases taken
    | calling p rest handling =>
      obtain ⟨timer, read, run⟩ := bind_eq_ok.mp (Option.some.inj taken)
      have found := get_eq_ok.mp read
      split at run
      · rename_i more
        obtain ⟨q', placed, done⟩ := bind_eq_ok.mp run
        cases done
        obtain ⟨timer', tree, n, fd, here, inserted, rfl⟩ := addTimer_ok placed
        dsimp only at found here
        rw [found, Option.some.injEq] at here
        cases here
        exact .readded rfl found more inserted
      · rename_i last
        cases run
        exact .ended rfl found last

/-- The step uses a deleted timer. -/
def usesDeleted (l : TimerLoop T N) (op : TimerOp) : Bool :=
  match l.step op with
  | some (.error .deletedTimer) => true
  | _ => false

theorem usesDeleted_iff : l.usesDeleted op = true ↔ l.step op = some (.error .deletedTimer) := by
  unfold usesDeleted
  split <;> simp_all

end TimerLoop

end Yamq
