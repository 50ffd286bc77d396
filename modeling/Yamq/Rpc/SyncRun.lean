import Yamq.Rpc.Executed

/-! What `SyncRunInEvd` promises. One flag serves all callers and all batches, so the store at the
end of a batch also releases a caller whose functor that batch did not hold. -/
namespace Yamq

/-- The functor whose `SyncRunInEvd` call has stored false and has not returned. -/
def CallerPc.waitsFor : CallerPc → Option Nat
  | .cleared true ticket => some ticket
  | .waking true ticket => some ticket
  | .spinning ticket => some ticket
  | _ => none

/-- The functor that a `SyncRunInEvd` call has pushed. -/
def CallerPc.syncing : CallerPc → Option Nat
  | .pushed true ticket => some ticket
  | pc => pc.waitsFor

theorem CallerPc.syncing_of_waitsFor {pc : CallerPc} {ticket : Nat}
    (h : pc.waitsFor = some ticket) : pc.syncing = some ticket := by
  cases pc with
  | pushed sync t => cases h
  | idle | cleared _ _ | waking _ _ | spinning _ | stopping => exact h

namespace EventDispatcher

variable {F W : Type} (exec : F → W → W)

/-- The store of true at the end of a batch finds no functor of a waiting `SyncRunInEvd` call in
`_pending_functors`. All other steps are free. -/
def Timely (d : EventDispatcher F W) (a : Act F) : Prop :=
  a = .loop → d.loop = .cleared → ∀ i ticket, (d.callers i).waitsFor = some ticket →
    ticket ∉ d.pending.map Queued.ticket

structure SyncInvariant (d : EventDispatcher F W) : Prop where
  /-- a pushed functor has run or will -/
  held : ∀ i ticket, (d.callers i).syncing = some ticket →
    ticket ∈ d.ran ∨ ticket ∈ d.batch.map Queued.ticket ∨ ticket ∈ d.pending.map Queued.ticket
  /-- the flag releases no caller too early -/
  released : d.pendingFunctorDone = true →
    ∀ i ticket, (d.callers i).waitsFor = some ticket → ticket ∈ d.ran
  returned : ∀ ticket ∈ d.synced, ticket ∈ d.ran

theorem new_syncInvariant (wakeupFd eventfd : Int) (world : W) :
    SyncInvariant (new wakeupFd eventfd world : EventDispatcher F W) where
  held := by
    intro i ticket h
    cases h
  released := by
    intro _ i ticket h
    cases h
  returned := by
    intro ticket h
    cases h

variable {exec} {d d' : EventDispatcher F W}

theorem SyncInvariant.move (h : d.SyncInvariant) {i : Nat} {pc : CallerPc}
    (pushed : ∀ ticket, pc.syncing = some ticket → (d.callers i).syncing = some ticket)
    (waits : d.pendingFunctorDone = true → ∀ ticket, pc.waitsFor = some ticket →
      (d.callers i).waitsFor = some ticket) : (d.setCaller i pc).SyncInvariant := by
  constructor
  · intro j ticket syncing
    by_cases same : j = i
    · subst same
      simp only [setCaller, Function.update_self] at syncing
      exact h.held _ ticket (pushed ticket syncing)
    · simp only [setCaller, Function.update_of_ne same] at syncing
      exact h.held j ticket syncing
  · intro done j ticket waiting
    by_cases same : j = i
    · subst same
      simp only [setCaller, Function.update_self] at waiting
      exact h.released done _ ticket (waits done ticket waiting)
    · simp only [setCaller, Function.update_of_ne same] at waiting
      exact h.released done j ticket waiting
  · exact h.returned

theorem SyncInvariant.push (h : d.SyncInvariant) (i : Nat) (sync : Bool) (cb : F) :
    (d.push i sync cb).SyncInvariant := by
  have grown : ∀ ticket, ticket ∈ d.pending.map Queued.ticket →
      ticket ∈ (d.pending ++ [Queued.mk d.nextTicket cb]).map Queued.ticket := by
    intro ticket member
    rw [List.map_append]
    exact List.mem_append_left _ member
  constructor
  · intro j ticket syncing
    by_cases same : j = i
    · subst same
      simp only [EventDispatcher.push, setCaller, Function.update_self] at syncing
      cases sync with
      | false => cases syncing
      | true =>
        cases syncing
        exact .inr (.inr (by simp [EventDispatcher.push, setCaller]))
    · simp only [EventDispatcher.push, setCaller, Function.update_of_ne same] at syncing
      rcases h.held j ticket syncing with ran | batch | pending
      · exact .inl ran
      · exact .inr (.inl batch)
      · exact .inr (.inr (grown ticket pending))
  · intro done j ticket waiting
    by_cases same : j = i
    · subst same
      simp only [EventDispatcher.push, setCaller, Function.update_self] at waiting
      cases waiting
    · simp only [EventDispatcher.push, setCaller, Function.update_of_ne same] at waiting
      exact h.released done j ticket waiting
  · exact h.returned

/-- A change of the parts that the invariant does not speak of. -/
theorem SyncInvariant.congr (h : d.SyncInvariant) (callers : d'.callers = d.callers)
    (ran : d'.ran = d.ran) (batch : d'.batch = d.batch) (pending : d'.pending = d.pending)
    (done : d'.pendingFunctorDone = true → d.pendingFunctorDone = true)
    (synced : d'.synced = d.synced) : d'.SyncInvariant := by
  constructor
  · rw [callers, ran, batch, pending]
    exact h.held
  · rw [callers, ran]
    exact fun set => h.released (done set)
  · rw [ran, synced]
    exact h.returned

theorem SyncInvariant.callerStep (h : d.SyncInvariant) {i : Nat}
    (taken : d.callerStep i = some d') : d'.SyncInvariant := by
  obtain ⟨ran, batch, pending, _, callers, done, synced⟩ := wakeup_keeps d
  have woken : d.wakeup.SyncInvariant :=
    h.congr callers ran batch pending (fun set => done ▸ set) synced
  unfold EventDispatcher.callerStep at taken
  split at taken
  · cases taken
  · -- the store of false: whatever the flag said before, it releases nobody now
    rename_i sync ticket pc
    cases taken
    have cleared : SyncInvariant { d with pendingFunctorDone := false } :=
      h.congr rfl rfl rfl rfl (fun set => absurd set Bool.false_ne_true) rfl
    refine cleared.move ?_ (fun set => absurd set Bool.false_ne_true)
    rw [pc]
    cases sync <;> exact fun _ => id
  · rename_i sync ticket pc
    split at taken
    · cases taken
      apply h.move <;> rw [pc] <;> cases sync <;> simp [CallerPc.syncing, CallerPc.waitsFor]
    · cases taken
      apply h.move <;> rw [pc] <;> cases sync <;> simp [CallerPc.syncing, CallerPc.waitsFor]
  · rename_i sync ticket pc
    cases taken
    apply woken.move <;> rw [callers, pc] <;> cases sync <;>
      simp [CallerPc.syncing, CallerPc.waitsFor]
  · rename_i ticket pc
    split at taken
    · rename_i done
      cases taken
      have ran := h.released done i ticket (by rw [pc]; rfl)
      have returned : SyncInvariant { d with synced := d.synced ++ [ticket] } := by
        refine ⟨h.held, h.released, ?_⟩
        intro t member
        rcases List.mem_append.mp member with old | new
        · exact h.returned t old
        · rw [List.mem_singleton.mp new]
          exact ran
      apply returned.move <;> intros <;> contradiction
    · cases taken
      exact h
  · cases taken
    apply woken.move <;> intros <;> contradiction

theorem SyncInvariant.loopStep (h : d.SyncInvariant) (timely : d.Timely (.loop : Act F))
    (taken : d.loopStep exec = some d') : d'.SyncInvariant := by
  unfold EventDispatcher.loopStep at taken
  split at taken
  · rename_i pc
    cases taken
    exact h.congr rfl rfl (by simp [batch, pc]) rfl id rfl
  · rename_i pc
    cases taken
    exact h.congr rfl rfl (by simp [batch, pc]) rfl id rfl
  · -- the swap
    rename_i pc
    cases taken
    refine ⟨?_, h.released, h.returned⟩
    intro i ticket syncing
    rcases h.held i ticket syncing with ran | held | pending
    · exact .inl ran
    · simp [batch, pc] at held
    · exact .inr (.inl pending)
  · rename_i pc
    cases taken
    exact h.congr rfl rfl (by simp [batch, pc]) rfl id rfl
  · -- a functor runs
    rename_i q rest pc
    cases taken
    have more : ∀ ticket ∈ d.ran, ticket ∈ d.ran ++ [q.ticket] := fun _ => List.mem_append_left _
    refine ⟨?_, fun done i ticket waiting => more _ (h.released done i ticket waiting),
      fun ticket member => more _ (h.returned ticket member)⟩
    intro i ticket syncing
    rcases h.held i ticket syncing with ran | held | pending
    · exact .inl (more _ ran)
    · simp only [batch, pc, List.map_cons, List.mem_cons] at held
      rcases held with rfl | held
      · exact .inl (List.mem_append_right _ (List.mem_singleton_self _))
      · exact .inr (.inl held)
    · exact .inr (.inr pending)
  · -- the store of true, with an empty batch and no waiting caller's functor in the queue
    rename_i pc
    cases taken
    have none : d.batch = [] := by simp [batch, pc]
    refine ⟨?_, ?_, h.returned⟩
    · intro i ticket syncing
      rcases h.held i ticket syncing with ran | held | pending
      · exact .inl ran
      · simp [none] at held
      · exact .inr (.inr pending)
    · intro _ i ticket waiting
      rcases h.held i ticket (CallerPc.syncing_of_waitsFor waiting) with ran | held | pending
      · exact ran
      · simp [none] at held
      · exact absurd pending (timely rfl pc i ticket waiting)
  · rename_i pc
    cases taken
    refine h.congr rfl rfl ?_ rfl id rfl
    cases d.stop <;> simp [batch, pc]
  · cases taken

theorem SyncInvariant.step (h : d.SyncInvariant) {a : Act F} (timely : d.Timely a)
    (taken : Steps exec d a d') : d'.SyncInvariant := by
  unfold Steps EventDispatcher.step at taken
  split at taken
  · rename_i i cb
    split at taken
    · cases taken; exact h.push i false cb
    · cases taken
  · rename_i i cb
    split at taken
    · cases taken; exact h.push i true cb
    · cases taken
  · split at taken
    · cases taken
      have stopped : SyncInvariant { d with stop := true } := h.congr rfl rfl rfl rfl id rfl
      apply stopped.move <;> intros <;> contradiction
    · cases taken
  · exact h.callerStep taken
  · split at taken
    · rename_i pc
      cases taken
      exact h.congr rfl rfl (by simp [batch, pc]) rfl id rfl
    · cases taken
  · split at taken
    · rename_i pc
      split at taken
      · cases taken
      · cases taken
        exact h.congr rfl rfl (by simp [batch, pc]) rfl id rfl
    · cases taken
  · exact h.loopStep timely taken

/-- A waiting caller returns once the flag is set, and nothing needs to run for it. -/
theorem waiting_returns {i ticket : Nat} (done : d.pendingFunctorDone = true)
    (waiting : (d.callers i).waitsFor = some ticket) :
    ∃ d', Transition.Reaches (Steps exec) Transition.Free d d' ∧ ticket ∈ d'.synced ∧
      d'.ran = d.ran := by
  -- from the loop on the flag, then from the steps before it
  have spun : ∀ d : EventDispatcher F W, d.pendingFunctorDone = true →
      d.callers i = .spinning ticket →
      ∃ d', Transition.Reaches (Steps exec) Transition.Free d d' ∧ ticket ∈ d'.synced ∧
        d'.ran = d.ran := by
    intro d done pc
    let released : EventDispatcher F W := { d with synced := d.synced ++ [ticket] }
    have taken : Steps exec d (.caller i) (released.setCaller i .idle) := by
      simp only [Steps, EventDispatcher.step, EventDispatcher.callerStep, pc, done, if_true, released]
    exact ⟨_, .step .start trivial taken, by simp [setCaller, released], rfl⟩
  have woken : ∀ d : EventDispatcher F W, d.pendingFunctorDone = true →
      d.callers i = .waking true ticket →
      ∃ d', Transition.Reaches (Steps exec) Transition.Free d d' ∧ ticket ∈ d'.synced ∧
        d'.ran = d.ran := by
    intro d done pc
    obtain ⟨ran, _, _, _, _, flag, _⟩ := wakeup_keeps d
    obtain ⟨d', run, returned, same⟩ := spun (d.wakeup.afterWakeup i true ticket) (flag.trans done)
      (by simp [afterWakeup, setCaller])
    refine ⟨d', Transition.Reaches.trans (.step (a := Act.caller i) .start trivial ?_) run, returned,
      same.trans ran⟩
    simp only [Steps, EventDispatcher.step, EventDispatcher.callerStep, pc]
  cases pc : d.callers i with
  | idle | pushed _ _ | stopping => simp [pc, CallerPc.waitsFor] at waiting
  | spinning t =>
    cases (by simpa [pc, CallerPc.waitsFor] using waiting : t = ticket)
    exact spun d done pc
  | waking sync t =>
    cases sync with
    | false => simp [pc, CallerPc.waitsFor] at waiting
    | true =>
      cases (by simpa [pc, CallerPc.waitsFor] using waiting : t = ticket)
      exact woken d done pc
  | cleared sync t =>
    cases sync with
    | false => simp [pc, CallerPc.waitsFor] at waiting
    | true =>
      cases (by simpa [pc, CallerPc.waitsFor] using waiting : t = ticket)
      by_cases calling : d.callingPendingFunctor = true
      · obtain ⟨d', run, returned, same⟩ := woken (d.setCaller i (.waking true ticket)) done
          (by simp [setCaller])
        refine ⟨d', Transition.Reaches.trans (.step (a := Act.caller i) .start trivial ?_) run,
          returned, same⟩
        simp only [Steps, EventDispatcher.step, EventDispatcher.callerStep, pc, calling, if_true]
      · obtain ⟨d', run, returned, same⟩ := spun (d.afterWakeup i true ticket) done
          (by simp [afterWakeup, setCaller])
        refine ⟨d', Transition.Reaches.trans (.step (a := Act.caller i) .start trivial ?_) run,
          returned, same⟩
        simp only [Steps, EventDispatcher.step, EventDispatcher.callerStep, pc, if_neg calling]

/-- The condition is exact: a store of true that is not timely lets some call return early. -/
theorem early_return_of_untimely (h : d.InOrder) {a : Act F} (untimely : ¬ d.Timely a) :
    ∃ d', Transition.Reaches (Steps exec) Transition.Free d d' ∧
      ∃ ticket ∈ d'.synced, ticket ∉ d'.ran := by
  simp only [Timely, not_forall, not_not] at untimely
  obtain ⟨rfl, pc, i, ticket, waiting, pending⟩ := untimely
  obtain ⟨d', run, returned, same⟩ := @waiting_returns _ _ exec
    { d with loop := .testing, pendingFunctorDone := true } i ticket rfl waiting
  refine ⟨d', Transition.Reaches.trans (.step (a := Act.loop) .start trivial ?_) run, ticket,
    returned, ?_⟩
  · simp only [Steps, EventDispatcher.step, EventDispatcher.loopStep, pc]
  · rw [same]
    exact h.pending_not_ran pending

theorem timely_of_check [DecidableEq F] (d : EventDispatcher F W) (a : Act F)
    (check : (a != .loop || d.loop != .cleared || d.pending.isEmpty) = true) : d.Timely a := by
  intro loop pc i ticket _
  have none : d.pending = [] := by simpa [loop, pc] using check
  rw [none]
  exact List.not_mem_nil

/-- In every run whose stores of true are timely, a `SyncRunInEvd` call that has returned has had
its functor run, and what has run has made the world what it is. -/
theorem sync_returns_after_run (exec : F → W → W) (wakeupFd eventfd : Int) (world : W)
    (d : EventDispatcher F W)
    (run : Transition.Reaches (Steps exec) Timely (new wakeupFd eventfd world) d) :
    (∀ ticket ∈ d.synced, ticket ∈ d.ran) ∧ Executed exec (new wakeupFd eventfd world) d :=
  ⟨(run.invariant (new_syncInvariant ..) fun _ _ _ h timely taken => h.step timely taken).returned,
    executed_of_reaches (run.mono fun _ _ _ => trivial)⟩

/-- One call whose functor is in the batch. -/
theorem sync_returns_after_run_once : ∃ d : EventDispatcher Unit Nat,
    Transition.Reaches (Steps fun _ w => w + 1) Timely (new 0 7 0) d ∧ d.synced = [0] ∧
      (∀ ticket ∈ d.synced, ticket ∈ d.ran) ∧ d.world = 1 ∧ Executed (fun _ w => w + 1) (new 0 7 0) d := by
  have run := Transition.Reaches.of_checked (step fun _ w => w + 1) _ (timely_of_check (F := Unit))
    (s := new 0 7 0) [.syncRunInEvd 1 (), .caller 1, .loop, .loop, .loop, .loop, .loop, .loop,
      .caller 1, .caller 1] rfl
  obtain ⟨ran, executed⟩ := sync_returns_after_run _ _ _ _ _ run
  exact ⟨_, run, rfl, ran, rfl, executed⟩

/-- The push and the store of false fall between the swap and the store of true of an empty batch. -/
theorem sync_returns_early : ∃ d : EventDispatcher Unit Nat,
    Transition.Reaches (Steps fun _ w => w + 1) Transition.Free (new 0 7 0) d ∧
      ¬ ∀ ticket ∈ d.synced, ticket ∈ d.ran := by
  refine ⟨_, Transition.Reaches.of_labels _ [.loop, .loop, .loop, .syncRunInEvd 1 (), .caller 1, .loop,
    .loop, .caller 1, .caller 1] rfl, ?_⟩
  decide

end EventDispatcher
end Yamq
