import Yamq.Rpc.EventDispatcher
import Yamq.Timer.Cancelling

/-! `AddTimer` on one thread and `CancelTimer` of its timer elsewhere. Thread 0 adds, thread 1 cancels
unless a callback on the loop thread does. -/
namespace Yamq

open TimerQueue

/-- The functors that `AddTimer` and `CancelTimer` hand to the loop. -/
inductive TimerCall where
  | addTimer (p : Nat)
  | cancelTimer (id : Int)
deriving DecidableEq, Repr

abbrev TimerWorld := Except Halt (TimerQueue (Rbtree Nat) Ptr)

/-- Nothing runs after the loop thread has stopped. -/
def TimerCall.exec (call : TimerCall) (world : TimerWorld) : TimerWorld := do
  let q ← world
  match call with
  | .addTimer p => q.addTimer p
  | .cancelTimer id => q.callCancelTimer id

/-- Where the thread that adds stands. -/
inductive AdderPc where
  | before
  | created (p : Nat)
  | pushed (p : Nat)
  | returned (p : Nat) (id : Int)
deriving DecidableEq, Repr

structure CrossThread where
  evd : EventDispatcher TimerCall TimerWorld
  adder : AdderPc := .before
  /-- `CancelTimer` has been called -/
  cancelled : Bool := false

inductive CrossAct where
  | clock (now : UInt64)
  | addTimer (time interval : UInt64) (cb : Nat)   -- `AddTimer` up to its `RunInEvd`
  | push                                           -- the `addPendingFunctor` of that
  | return_                                        -- `return timer->id`
  | cancelTimer                                    -- on the other thread
  | callback                                       -- on the loop thread, at once
  | caller (thread : Nat)
  | wakeupRead
  | loop
deriving DecidableEq, Repr

namespace CrossThread

/-- Callbacks run in event handlers and in functors. -/
def onLoop (s : CrossThread) : Bool :=
  match s.evd.loop with
  | .handling => true
  | .running _ => true
  | _ => false

/-- A call that ends the process has no next state. -/
def step (s : CrossThread) : CrossAct → Option CrossThread
  | .clock now => some { s with evd := { s.evd with world := s.evd.world.map fun q =>
      { q with clock := now, timerfd := q.timerfd.tick now } } }
  | .addTimer time interval cb =>
    match s.adder, s.evd.world with
    | .before, .ok q => do
      let (q, p) ← (q.createTimer time interval cb).toOption
      return { s with evd := { s.evd with world := .ok q }, adder := .created p }
    | _, _ => none
  | .push =>
    match s.adder with
    | .created p => if s.evd.callers 0 = .idle then
        some { s with evd := s.evd.runInEvd 0 (.addTimer p), adder := .pushed p } else none
    | _ => none
  | .return_ =>
    match s.adder, s.evd.world with
    | .pushed p, .ok q => if s.evd.callers 0 = .idle then
        match q.get p with
        | .ok timer => some { s with adder := .returned p timer.id }
        | .error e => some { s with evd := { s.evd with world := .error e } }
      else none
    | _, _ => none
  | .cancelTimer =>
    match s.adder with
    | .returned _ id => if s.cancelled = false ∧ s.evd.callers 1 = .idle then
        some { s with evd := s.evd.runInEvd 1 (.cancelTimer id), cancelled := true } else none
    | _ => none
  | .callback =>
    match s.adder with
    | .returned _ id => if s.cancelled = false ∧ s.onLoop then
        some { s with
          evd := { s.evd with world := (TimerCall.cancelTimer id).exec s.evd.world }
          cancelled := true }
      else none
    | _ => none
  | .caller i => (s.evd.step TimerCall.exec (.caller i)).map fun evd => { s with evd }
  | .wakeupRead => (s.evd.step TimerCall.exec .wakeupRead).map fun evd => { s with evd }
  | .loop => (s.evd.step TimerCall.exec .loop).map fun evd => { s with evd }

def Steps (s : CrossThread) (act : CrossAct) (s' : CrossThread) : Prop := s.step act = some s'

/-- Before the two calls, in front of a queue with other timers. -/
def start (wakeupFd eventfd : Int) (q : TimerQueue (Rbtree Nat) Ptr) : CrossThread :=
  { evd := .new wakeupFd eventfd (.ok q) }

/-- A callback cancels only when the queued `addTimer` has run, and that finds a new key. -/
def Ordered (s : CrossThread) : CrossAct → Prop
  | .callback => ∀ p, .addTimer p ∉ s.evd.queue
  | .loop => ∀ p q timer, (s.evd.batch.map Queued.functor).head? = some (.addTimer p) →
      s.evd.world = .ok q → q.timers p = some timer → NewKey q.tree (toLongLong (q.expireOf timer))
  | _ => True

/-- The queued cancellation, if there is one. -/
def cancels (s : CrossThread) (id : Int) : List TimerCall :=
  if s.cancelled then [.cancelTimer id] else []

/-- How far the two calls are. -/
inductive Phase (s : CrossThread) : Prop where
  | before {q : TimerQueue (Rbtree Nat) Ptr} {nodes : List (Nat × Entry Nat)}
      (world : s.evd.world = .ok q) (refs : Refs q) (links : Links q [] nodes)
      (adder : s.adder = .before) (quiet : s.cancelled = false) (queue : s.evd.queue = [])
  | created {q : TimerQueue (Rbtree Nat) Ptr} {nodes : List (Nat × Entry Nat)} {p : Nat}
      {timer : Timer Ptr} (world : s.evd.world = .ok q) (refs : Refs q) (links : Links q [p] nodes)
      (here : q.timers p = some timer) (adder : s.adder = .created p) (quiet : s.cancelled = false)
      (queue : s.evd.queue = [])
  | waiting {q : TimerQueue (Rbtree Nat) Ptr} {nodes : List (Nat × Entry Nat)} {p : Nat}
      {timer : Timer Ptr} (world : s.evd.world = .ok q) (refs : Refs q) (links : Links q [p] nodes)
      (here : q.timers p = some timer)
      (adder : s.adder = .pushed p ∧ s.cancelled = false ∨ s.adder = .returned p timer.id)
      (queue : s.evd.queue = .addTimer p :: s.cancels timer.id)
  | placed {q : TimerQueue (Rbtree Nat) Ptr} {nodes : List (Nat × Entry Nat)} {p : Nat}
      {timer : Timer Ptr} (world : s.evd.world = .ok q) (refs : Refs q) (links : Links q [] nodes)
      (here : q.timers p = some timer)
      (adder : s.adder = .pushed p ∧ s.cancelled = false ∨ s.adder = .returned p timer.id)
      (queue : s.evd.queue = s.cancels timer.id)
  | gone {q : TimerQueue (Rbtree Nat) Ptr} {p : Nat} {id : Int} (world : s.evd.world = .ok q)
      (dead : q.timers p = none) (young : p < q.allocated) (out : ¬ Stores q.tree p)
      (adder : s.adder = .returned p id) (both : s.cancelled = true) (queue : s.evd.queue = [])

variable {s s' : CrossThread} {act : CrossAct} {now : UInt64}

theorem Phase.congr (h : Phase s) (world : s'.evd.world = s.evd.world)
    (queue : s'.evd.queue = s.evd.queue) (adder : s'.adder = s.adder)
    (cancelled : s'.cancelled = s.cancelled) : Phase s' := by
  have same (id : Int) : s'.cancels id = s.cancels id := by rw [cancels, cancelled, cancels]
  cases h with
  | before w refs links a quiet q =>
    exact .before (world.trans w) refs links (adder.trans a) (cancelled.trans quiet) (queue.trans q)
  | created w refs links here a quiet q =>
    exact .created (world.trans w) refs links here (adder.trans a) (cancelled.trans quiet) (queue.trans q)
  | waiting w refs links here a q =>
    exact .waiting (world.trans w) refs links here (by rwa [adder, cancelled]) (by rw [queue, q, same])
  | placed w refs links here a q =>
    exact .placed (world.trans w) refs links here (by rwa [adder, cancelled]) (by rw [queue, q, same])
  | gone w dead young out a both q =>
    exact .gone (world.trans w) dead young out (adder.trans a) (cancelled.trans both) (queue.trans q)

theorem Phase.clock (h : Phase s) (steps : Steps s (.clock now) s') : Phase s' := by
  cases steps
  have later {q : TimerQueue (Rbtree Nat) Ptr} (world : s.evd.world = .ok q) :
      (s.evd.world.map fun q : TimerQueue (Rbtree Nat) Ptr =>
        { q with clock := now, timerfd := q.timerfd.tick now }) =
          .ok { q with clock := now, timerfd := q.timerfd.tick now } := by
    rw [world]
    rfl
  cases h with
  | before w refs links a quiet q =>
    exact .before (later w) ⟨refs.named, refs.known⟩ (links.congr rfl rfl) a quiet q
  | created w refs links here a quiet q =>
    exact .created (later w) ⟨refs.named, refs.known⟩ (links.congr rfl rfl) here a quiet q
  | waiting w refs links here a q =>
    exact .waiting (later w) ⟨refs.named, refs.known⟩ (links.congr rfl rfl) here a q
  | placed w refs links here a q =>
    exact .placed (later w) ⟨refs.named, refs.known⟩ (links.congr rfl rfl) here a q
  | gone w dead young out a both q => exact .gone (later w) dead young out a both q

theorem Phase.addTimer {time interval : UInt64} {cb : Nat} (h : Phase s)
    (steps : Steps s (.addTimer time interval cb) s') : Phase s' := by
  simp only [Steps, CrossThread.step] at steps
  split at steps
  · rename_i q adder world
    obtain ⟨⟨q', p⟩, made, done⟩ := Option.bind_eq_some_iff.mp steps
    cases done
    cases run : q.createTimer time interval cb with
    | error e =>
      rw [run] at made
      cases made
    | ok made' =>
      rw [run] at made
      cases made
      obtain ⟨id, free, rfl, rfl⟩ := createTimer_ok run
      cases h with
      | before w refs links a quiet queue =>
        cases world.symm.trans w
        have here : (q.created (newTimer id time interval cb)).timers q.allocated =
            some (newTimer id time interval cb) := by
          rw [created_timers, if_pos rfl]
        exact .created rfl (refs.created free) (links.created refs _) here rfl quiet queue
      | created _ _ _ _ a => cases adder.symm.trans a
      | waiting _ _ _ _ a => rcases a with ⟨a, _⟩ | a <;> cases adder.symm.trans a
      | placed _ _ _ _ a => rcases a with ⟨a, _⟩ | a <;> cases adder.symm.trans a
      | gone _ _ _ _ a => cases adder.symm.trans a
  · cases steps

theorem Phase.push (h : Phase s) (steps : Steps s .push s') : Phase s' := by
  simp only [Steps, CrossThread.step] at steps
  split at steps
  · rename_i p adder
    split at steps
    · cases steps
      cases h with
      | before _ _ _ a => cases adder.symm.trans a
      | created w refs links here a quiet queue =>
        cases adder.symm.trans a
        refine .waiting w refs links here (.inl ⟨rfl, quiet⟩) ?_
        change (s.evd.push 0 false (.addTimer p)).queue = _
        rw [EventDispatcher.queue_push, queue, cancels, quiet]
        rfl
      | waiting _ _ _ _ a => rcases a with ⟨a, _⟩ | a <;> cases adder.symm.trans a
      | placed _ _ _ _ a => rcases a with ⟨a, _⟩ | a <;> cases adder.symm.trans a
      | gone _ _ _ _ a => cases adder.symm.trans a
    · cases steps
  · cases steps

theorem Phase.return_ (h : Phase s) (steps : Steps s .return_ s') : Phase s' := by
  simp only [Steps, CrossThread.step] at steps
  split at steps
  · rename_i p q adder world
    split at steps
    · cases h with
      | before _ _ _ a => cases adder.symm.trans a
      | created _ _ _ _ a => cases adder.symm.trans a
      | waiting w refs links here a queue =>
        rcases a with ⟨a, _⟩ | a <;> cases adder.symm.trans a
        cases world.symm.trans w
        rw [get_of_some here] at steps
        cases steps
        exact .waiting w refs links here (.inr rfl) queue
      | placed w refs links here a queue =>
        rcases a with ⟨a, _⟩ | a <;> cases adder.symm.trans a
        cases world.symm.trans w
        rw [get_of_some here] at steps
        cases steps
        exact .placed w refs links here (.inr rfl) queue
      | gone _ _ _ _ a => cases adder.symm.trans a
    · cases steps
  · cases steps

theorem Phase.cancelTimer (h : Phase s) (steps : Steps s .cancelTimer s') : Phase s' := by
  simp only [Steps, CrossThread.step] at steps
  split at steps
  · rename_i p id adder
    split at steps
    · rename_i free
      cases steps
      have grown : (s.evd.runInEvd 1 (.cancelTimer id)).queue = s.evd.queue ++ [.cancelTimer id] :=
        EventDispatcher.queue_push ..
      cases h with
      | before _ _ _ a => cases adder.symm.trans a
      | created _ _ _ _ a => cases adder.symm.trans a
      | waiting w refs links here a queue =>
        rcases a with ⟨a, _⟩ | a <;> cases adder.symm.trans a
        refine .waiting w refs links here (.inr adder) (grown.trans ?_)
        rw [queue, cancels, free.1]
        rfl
      | placed w refs links here a queue =>
        rcases a with ⟨a, _⟩ | a <;> cases adder.symm.trans a
        refine .placed w refs links here (.inr adder) (grown.trans ?_)
        rw [queue, cancels, free.1]
        rfl
      | gone _ _ _ _ _ both => cases both.symm.trans free.1
    · cases steps
  · cases steps

theorem cancels_placed {q : TimerQueue (Rbtree Nat) Ptr} {nodes : List (Nat × Entry Nat)} {p : Nat}
    {timer : Timer Ptr} (refs : Refs q) (links : Links q [] nodes) (here : q.timers p = some timer) :
    ∃ q', (TimerCall.cancelTimer timer.id).exec (.ok q) = .ok q' ∧ q'.timers p = none ∧
      p < q'.allocated ∧ ¬ Stores q'.tree p := by
  obtain ⟨young, known⟩ := refs.known p timer here
  obtain ⟨n, member⟩ := links.pending p timer here List.not_mem_nil
  obtain ⟨_, timer', here', attach, _⟩ := links.stored n _ member
  cases here.symm.trans here'
  obtain ⟨q', run, allocated, timers, stores, _⟩ := links.cancels known here List.not_mem_nil attach
  refine ⟨q', ?_, ?_, allocated ▸ young, fun stored => ((stores p).mp stored).2 rfl⟩
  · simp only [TimerCall.exec, ok_bind, callCancelTimer, run, pure_ok]
  · rw [timers, Function.update_self]

theorem Phase.callback (h : Phase s) (ordered : Ordered s .callback) (steps : Steps s .callback s') :
    Phase s' := by
  simp only [Steps, CrossThread.step] at steps
  split at steps
  · rename_i p id adder
    split at steps
    · rename_i free
      cases steps
      cases h with
      | before _ _ _ a => cases adder.symm.trans a
      | created _ _ _ _ a => cases adder.symm.trans a
      | @waiting q nodes p timer w refs links here a queue =>
        exact absurd (queue ▸ List.mem_cons_self) (ordered p)
      | placed w refs links here a queue =>
        rcases a with ⟨a, _⟩ | a <;> cases adder.symm.trans a
        obtain ⟨q', run, dead, young, out⟩ := cancels_placed refs links here
        refine .gone (q := q') ?_ dead young out adder rfl ?_
        · change (TimerCall.cancelTimer _).exec s.evd.world = _
          rw [w]
          exact run
        · change s.evd.queue = []
          rw [queue, cancels, free.1]
          rfl
      | gone _ _ _ _ _ both => cases both.symm.trans free.1
    · cases steps
  · cases steps

theorem Phase.loop (h : Phase s) (ordered : Ordered s .loop) (steps : Steps s .loop s') :
    Phase s' := by
  obtain ⟨evd, taken, rfl⟩ := Option.map_eq_some_iff.mp steps
  rcases EventDispatcher.loop_spec taken with ⟨world, queue⟩ | ⟨cb, head, queue, world⟩
  · exact h.congr world queue rfl rfl
  · cases h with
    | before _ _ _ _ _ none => cases queue.symm.trans none
    | created _ _ _ _ _ _ none => cases queue.symm.trans none
    | @waiting q nodes p timer w refs links here a waits =>
      obtain ⟨rfl, rest⟩ := List.cons.inj (queue.symm.trans waits)
      have key := ordered p q timer head w here
      obtain ⟨tree, n, fd, inserted, run⟩ := links.place here List.not_mem_nil key
      obtain ⟨nodes', placed, _⟩ := links.insert List.not_mem_nil key inserted fd
      have live : (q.placed p timer tree n fd).timers p =
          some { timer with expire := q.expireOf timer, attach := some n } := Function.update_self ..
      exact .placed (world.trans (w ▸ run)) (refs.congr (placed_same here ..)) placed live a rest
    | placed w refs links here a waits =>
      unfold cancels at waits
      split at waits
      · rename_i both
        obtain ⟨rfl, rest⟩ := List.cons.inj (queue.symm.trans waits)
        obtain ⟨q', run, dead, young, out⟩ := cancels_placed refs links here
        rcases a with ⟨_, quiet⟩ | a
        · cases both.symm.trans quiet
        · exact .gone (world.trans (w ▸ run)) dead young out a both rest
      · cases queue.symm.trans waits
    | gone _ _ _ _ _ _ none => cases queue.symm.trans none

theorem Phase.step (h : Phase s) (ordered : Ordered s act) (steps : Steps s act s') : Phase s' := by
  cases act with
  | clock now => exact h.clock steps
  | addTimer time interval cb => exact h.addTimer steps
  | push => exact h.push steps
  | return_ => exact h.return_ steps
  | cancelTimer => exact h.cancelTimer steps
  | callback => exact h.callback ordered steps
  | caller i =>
    obtain ⟨evd, taken, rfl⟩ := Option.map_eq_some_iff.mp steps
    obtain ⟨world, queue⟩ := EventDispatcher.caller_spec taken
    exact h.congr world queue rfl rfl
  | wakeupRead =>
    obtain ⟨evd, taken, rfl⟩ := Option.map_eq_some_iff.mp steps
    obtain ⟨world, queue⟩ := EventDispatcher.wakeupRead_spec taken
    exact h.congr world queue rfl rfl
  | loop => exact h.loop ordered steps

end CrossThread

/-- A deleted timer that has not fired. -/
structure Buried (p : Nat) (l : TimerLoop (Rbtree Nat) Ptr) : Prop where
  dead : l.queue.timers p = none
  young : p < l.queue.allocated
  quiet : .fired p ∉ l.history

theorem Buried.step {p : Nat} {l l' : TimerLoop (Rbtree Nat) Ptr} {op : TimerOp} (h : Buried p l)
    (steps : TimerLoop.Steps l op l') : Buried p l' := by
  have dead : l'.queue.timers p = none ∧ p < l'.queue.allocated := by
    rw [← Option.not_isSome_iff_eq_none]
    cases TimerLoop.step_objects steps with
    | same _ same =>
      rw [same.live, same.allocated, h.dead]
      exact ⟨nofun, h.young⟩
    | created _ timer _ same =>
      rw [same.live, same.allocated, created_timers, if_neg (Nat.ne_of_lt h.young), h.dead]
      exact ⟨nofun, Nat.lt_succ_of_lt h.young⟩
    | deleted x timer _ _ same =>
      rw [same.live, same.allocated, put_timers]
      refine ⟨?_, h.young⟩
      by_cases other : p = x
      · rw [other, Function.update_self]
        exact nofun
      · rw [Function.update_of_ne other, h.dead]
        exact nofun
  refine ⟨dead.1, dead.2, ?_⟩
  have grown {events : List TimerEvent} (new : .fired p ∉ events) : .fired p ∉ l.history ++ events :=
    fun member => (List.mem_append.mp member).elim h.quiet new
  cases TimerLoop.step_effect steps with
  | clock => exact h.quiet
  | added => exact grown (by simp)
  | unknown => exact h.quiet
  | cancelled => exact grown (by simp)
  | ticked => exact h.quiet
  | read => exact h.quiet
  | finished => exact h.quiet
  | rearmed => exact h.quiet
  | @fired x _ _ timer _ here =>
    refine grown fun member => ?_
    cases List.mem_singleton.mp member
    cases h.dead.symm.trans here
  | dropped => exact h.quiet
  | readded => exact h.quiet
  | ended => exact h.quiet

namespace CrossThread

open Transition

/-- In every interleaving, from every queue whose timers are linked to their nodes, in which a callback
cancels only when the queued `addTimer` has run and that finds a new key: no step fails, and when both
calls have run, the timer is deleted and not in the tree and never fires. -/
theorem add_cancel_commute (wakeupFd eventfd : Int) (q : TimerQueue (Rbtree Nat) Ptr)
    (nodes : List (Nat × Entry Nat)) (refs : Refs q) (links : Links q [] nodes) (s : CrossThread)
    (run : Reaches Steps Ordered (start wakeupFd eventfd q) s) :
    (∃ q', s.evd.world = .ok q') ∧ ∀ p id, s.adder = .returned p id → s.cancelled = true →
      .addTimer p ∉ s.evd.queue → .cancelTimer id ∉ s.evd.queue →
      ∃ q', s.evd.world = .ok q' ∧ q'.timers p = none ∧ ¬ Stores q'.tree p ∧
        ∀ l, Reaches TimerLoop.Steps Free ⟨q', .idle, []⟩ l → .fired p ∉ l.history := by
  have phase : Phase s := run.invariant (.before rfl refs links rfl rfl rfl) fun _ _ _ h ordered taken =>
    h.step ordered taken
  cases phase with
  | before w _ _ a => exact ⟨⟨_, w⟩, fun p id returned => by cases a.symm.trans returned⟩
  | created w _ _ _ a => exact ⟨⟨_, w⟩, fun p id returned => by cases a.symm.trans returned⟩
  | waiting w _ _ _ a queue =>
    refine ⟨⟨_, w⟩, fun p id returned both ran => ?_⟩
    rcases a with ⟨_, quiet⟩ | a
    · cases both.symm.trans quiet
    · cases a.symm.trans returned
      exact absurd (queue ▸ List.mem_cons_self) ran
  | placed w _ _ _ a queue =>
    refine ⟨⟨_, w⟩, fun p id returned both _ ran => ?_⟩
    rcases a with ⟨_, quiet⟩ | a
    · cases both.symm.trans quiet
    · cases a.symm.trans returned
      rw [queue, cancels, both] at ran
      exact absurd List.mem_cons_self ran
  | @gone q' p' id' w dead young out a =>
    refine ⟨⟨_, w⟩, fun p id returned _ _ _ => ?_⟩
    cases a.symm.trans returned
    refine ⟨q', w, dead, out, fun l later => ?_⟩
    have buried : Buried p' l := later.invariant ⟨dead, young, List.not_mem_nil⟩
      fun _ _ _ h _ taken => h.step taken
    exact buried.quiet

theorem newKey_empty {t : Rbtree Nat} (empty : t.root = t.nil) (key : Int) : NewKey t key := by
  rintro n e ⟨nodes, ⟨tree, holds, rfl⟩, member⟩
  cases tree with
  | nil => cases member
  | node c l i e r => exact absurd (holds.root.symm.trans empty) (holds.not_nil (by simp))

/-- No callback cancels, and `addTimer` runs on an empty tree. -/
def plain (s : CrossThread) : CrossAct → Bool
  | .callback => false
  | .loop => match s.evd.world with
    | .ok q => (s.evd.batch.map Queued.functor).head? = none ∨ q.tree.root = q.tree.nil ∨
        (s.evd.batch.map Queued.functor).head? = some (.cancelTimer 1)
    | .error _ => true
  | _ => true

theorem plain_ordered (s : CrossThread) (act : CrossAct) (check : s.plain act = true) :
    Ordered s act := by
  cases act with
  | callback => cases check
  | loop =>
    intro p q timer head world here
    simp only [plain, world, head, decide_eq_true_eq, reduceCtorEq, Option.some.injEq, false_or,
      or_false] at check
    exact newKey_empty check _
  | clock => trivial
  | addTimer => trivial
  | push => trivial
  | return_ => trivial
  | cancelTimer => trivial
  | caller => trivial
  | wakeupRead => trivial

/-- The other thread cancels before the loop has run either functor. -/
theorem add_cancel_commute_queued : ∃ (s : CrossThread) (q : TimerQueue (Rbtree Nat) Ptr),
    s.adder = .returned 0 1 ∧ s.cancelled = true ∧ s.evd.world = .ok q ∧ ¬ Stores q.tree 0 := by
  have runs : ([.addTimer 10 1 7, .push, .caller 0, .caller 0, .return_, .cancelTimer, .loop, .loop,
      .loop, .loop, .loop].foldlM (fun s act => if plain s act then CrossThread.step s act else none)
        (start 0 7 (TimerLoop.start (Rbtree.create 0) 1000).queue)).any
          fun s => s.adder = .returned 0 1 ∧ s.cancelled = true ∧ s.evd.queue = [] := by
    decide +kernel
  obtain ⟨s, made, test⟩ := (Option.any_eq_true _ _).mp runs
  obtain ⟨returned, both, none⟩ := of_decide_eq_true test
  have run := Reaches.of_checked CrossThread.step plain plain_ordered _ made
  have links : Links (TimerLoop.start (Rbtree.create 0) 1000).queue [] [] :=
    ⟨Rbtree.create_search 0, nofun, nofun⟩
  have ran (call : TimerCall) : call ∉ s.evd.queue := by
    rw [none]
    exact List.not_mem_nil
  obtain ⟨q, world, _, out, _⟩ := (add_cancel_commute 0 7 _ [] (TimerLoop.start_refs ..) links s run).2
    0 1 returned both (ran _) (ran _)
  exact ⟨s, q, returned, both, world, out⟩

/-- A callback receives the id of a timer and cancels it before the queued `addTimer` has run, which
then uses the deleted timer. -/
theorem cancelled_before_added : ∃ s : CrossThread, Reaches Steps Free
    (start 0 7 (TimerLoop.start (Rbtree.create 0) 1000).queue) s ∧
      s.evd.world = .error .deletedTimer := by
  have runs : ([.addTimer 10 1 7, .push, .caller 0, .caller 0, .return_, .loop, .callback, .loop, .loop,
      .loop].foldlM CrossThread.step (start 0 7 (TimerLoop.start (Rbtree.create 0) 1000).queue)).any
        fun s => match s.evd.world with
          | .error h => h = .deletedTimer
          | .ok _ => false := by
    decide +kernel
  obtain ⟨s, run, test⟩ := (Option.any_eq_true _ _).mp runs
  refine ⟨s, .of_labels _ _ run, ?_⟩
  split at test
  · rename_i h world
    rw [world, of_decide_eq_true test]
  · cases test

end CrossThread

end Yamq
