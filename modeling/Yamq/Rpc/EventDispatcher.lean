import Yamq.Lib.Transition
import Mathlib.Logic.Function.Basic

/-! The pending functors of `rpc/event_dispatcher.cpp` under every interleaving: the loop thread and
any number of callers, with each mutex section and each access to an atomic as one step. What a
functor does is a parameter, a function on the `world` that functors share; a call of `RunInEvd` or
`SyncRunInEvd` on the loop thread runs its argument at once and belongs to that function. -/
namespace Yamq

/-- A functor in `_pending_functors`, with the number of the call that pushed it. -/
structure Queued (F : Type) where
  ticket : Nat
  functor : F
deriving DecidableEq, Repr

/-- Where a thread other than the loop stands. `sync` tells `SyncRunInEvd` from `RunInEvd`. -/
inductive CallerPc where
  | idle
  | pushed (sync : Bool) (ticket : Nat)
  | cleared (sync : Bool) (ticket : Nat)   -- `_pending_functor_done = false` is stored
  | waking (sync : Bool) (ticket : Nat)
  | spinning (ticket : Nat)
  | stopping
deriving DecidableEq, Repr

inductive LoopPc (F : Type) where
  | selecting
  | handling
  | calling                              -- `_calling_pending_functor = true` is stored
  | running (batch : List (Queued F))
  | cleared                              -- `_calling_pending_functor = false` is stored
  | testing                              -- `_pending_functor_done = true` is stored
  | exited
deriving DecidableEq, Repr

structure EventDispatcher (F W : Type) where
  pending : List (Queued F) := []
  pendingFunctorDone : Bool := true
  callingPendingFunctor : Bool := false
  stop : Bool := false
  /-- `_wakeup_fds[0]`, which the constructor leaves unset -/
  wakeupFd : Int
  /-- the descriptor of `_wakeup_channel` and what has been written to it since the last read -/
  eventfd : Int
  signals : Nat := 0
  loop : LoopPc F := .selecting
  callers : Nat → CallerPc := fun _ => .idle
  nextTicket : Nat := 0
  /-- the calls whose functors have run, and the `SyncRunInEvd` calls that have returned -/
  ran : List Nat := []
  synced : List Nat := []
  world : W

namespace EventDispatcher

variable {F W : Type} (exec : F → W → W)

def setCaller (d : EventDispatcher F W) (i : Nat) (pc : CallerPc) : EventDispatcher F W :=
  { d with callers := Function.update d.callers i pc }

/-- `Wakeup`. A write that fails ends the process, and with it the run; that is left out. -/
def wakeup (d : EventDispatcher F W) : EventDispatcher F W :=
  if d.wakeupFd = d.eventfd then { d with signals := d.signals + 1 } else d

/-- The locked part of `addPendingFunctor`, with which both calls begin. -/
def push (d : EventDispatcher F W) (i : Nat) (sync : Bool) (cb : F) : EventDispatcher F W :=
  let d' := { d with
    pending := d.pending ++ [Queued.mk d.nextTicket cb]
    nextTicket := d.nextTicket + 1 }
  d'.setCaller i (.pushed sync d.nextTicket)

def runInEvd (d : EventDispatcher F W) (i : Nat) (cb : F) : EventDispatcher F W := d.push i false cb

def syncRunInEvd (d : EventDispatcher F W) (i : Nat) (cb : F) : EventDispatcher F W := d.push i true cb

/-- The last line of a call: `RunInEvd` returns here, `SyncRunInEvd` goes on to its loop. -/
def afterWakeup (d : EventDispatcher F W) (i : Nat) (sync : Bool) (ticket : Nat) :
    EventDispatcher F W :=
  d.setCaller i (if sync then .spinning ticket else .idle)

/-- The next step of the call that a thread is in. -/
def callerStep (d : EventDispatcher F W) (i : Nat) : Option (EventDispatcher F W) :=
  match d.callers i with
  | .idle => none
  | .pushed sync ticket =>
    some ({ d with pendingFunctorDone := false }.setCaller i (.cleared sync ticket))
  | .cleared sync ticket =>
    if d.callingPendingFunctor then some (d.setCaller i (.waking sync ticket))
    else some (d.afterWakeup i sync ticket)
  | .waking sync ticket => some (d.wakeup.afterWakeup i sync ticket)
  | .spinning ticket =>
    if d.pendingFunctorDone then
      some ({ d with synced := d.synced ++ [ticket] }.setCaller i .idle)
    else some d
  | .stopping => some (d.wakeup.setCaller i .idle)

/-- The next step of `Start` and of the `runPendingFunctor` in it. -/
def loopStep (d : EventDispatcher F W) : Option (EventDispatcher F W) :=
  match d.loop with
  | .selecting => some { d with loop := .handling }
  | .handling => some { d with loop := .calling, callingPendingFunctor := true }
  | .calling => some { d with loop := .running d.pending, pending := [] }
  | .running [] => some { d with loop := .cleared, callingPendingFunctor := false }
  | .running (q :: batch) =>
    some { d with loop := .running batch, world := exec q.functor d.world, ran := d.ran ++ [q.ticket] }
  | .cleared => some { d with loop := .testing, pendingFunctorDone := true }
  | .testing => some { d with loop := if d.stop then .exited else .selecting }
  | .exited => none

inductive Act (F : Type) where
  | runInEvd (thread : Nat) (cb : F)
  | syncRunInEvd (thread : Nat) (cb : F)
  | stop (thread : Nat)
  | caller (thread : Nat)
  | handler (cb : F)     -- an event handler, with all that it runs on the loop thread
  | wakeupRead           -- `WakeupChannel::HandleRead`
  | loop
deriving DecidableEq, Repr

def step (d : EventDispatcher F W) : Act F → Option (EventDispatcher F W)
  | .runInEvd i cb => if d.callers i = .idle then some (d.runInEvd i cb) else none
  | .syncRunInEvd i cb => if d.callers i = .idle then some (d.syncRunInEvd i cb) else none
  | .stop i => if d.callers i = .idle then some ({ d with stop := true }.setCaller i .stopping) else none
  | .caller i => d.callerStep i
  | .handler cb =>
    match d.loop with
    | .handling => some { d with world := exec cb d.world }
    | _ => none
  | .wakeupRead =>
    match d.loop with
    | .handling => if d.signals = 0 then none else some { d with signals := 0 }
    | _ => none
  | .loop => d.loopStep exec

def Steps (d : EventDispatcher F W) (a : Act F) (d' : EventDispatcher F W) : Prop :=
  d.step exec a = some d'

/-- The dispatcher as its constructor leaves it. -/
def new (wakeupFd eventfd : Int) (world : W) : EventDispatcher F W :=
  { wakeupFd := wakeupFd, eventfd := eventfd, world := world }

/-- What the running `runPendingFunctor` still has to run. -/
def batch (d : EventDispatcher F W) : List (Queued F) :=
  match d.loop with
  | .running batch => batch
  | _ => []

/-- Every call's functor is in one place, and the places together are in the order of the calls. -/
def InOrder (d : EventDispatcher F W) : Prop :=
  d.ran ++ (d.batch ++ d.pending).map Queued.ticket = List.range d.nextTicket

variable {exec} {d d' : EventDispatcher F W}

theorem InOrder.congr (h : d.InOrder) (ran : d'.ran = d.ran) (batch : d'.batch = d.batch)
    (pending : d'.pending = d.pending) (next : d'.nextTicket = d.nextTicket) : d'.InOrder := by
  rw [InOrder, ran, batch, pending, next]
  exact h

theorem InOrder.push (h : d.InOrder) (i : Nat) (sync : Bool) (cb : F) : (d.push i sync cb).InOrder := by
  have held : (d.push i sync cb).batch = d.batch := rfl
  have queue : (d.push i sync cb).pending = d.pending ++ [Queued.mk d.nextTicket cb] := rfl
  have ran : (d.push i sync cb).ran = d.ran := rfl
  have next : (d.push i sync cb).nextTicket = d.nextTicket + 1 := rfl
  rw [InOrder] at *
  rw [held, queue, ran, next, List.range_succ, ← h]
  simp

theorem wakeup_keeps (d : EventDispatcher F W) : d.wakeup.ran = d.ran ∧ d.wakeup.batch = d.batch ∧
    d.wakeup.pending = d.pending ∧ d.wakeup.nextTicket = d.nextTicket ∧
    d.wakeup.callers = d.callers ∧ d.wakeup.pendingFunctorDone = d.pendingFunctorDone ∧
    d.wakeup.synced = d.synced := by
  unfold wakeup
  split <;> exact ⟨rfl, rfl, rfl, rfl, rfl, rfl, rfl⟩

theorem InOrder.callerStep (h : d.InOrder) {i : Nat} (taken : d.callerStep i = some d') :
    d'.InOrder := by
  obtain ⟨ran, batch, pending, next, _⟩ := wakeup_keeps d
  have woken : d.wakeup.InOrder := h.congr ran batch pending next
  unfold EventDispatcher.callerStep at taken
  split at taken
  · cases taken
  · cases taken; exact h.congr rfl rfl rfl rfl
  · split at taken <;> cases taken <;> exact h.congr rfl rfl rfl rfl
  · cases taken; exact woken.congr rfl rfl rfl rfl
  · split at taken <;> cases taken <;> exact h.congr rfl rfl rfl rfl
  · cases taken; exact woken.congr rfl rfl rfl rfl

theorem InOrder.loopStep (h : d.InOrder) (taken : d.loopStep exec = some d') : d'.InOrder := by
  unfold EventDispatcher.loopStep at taken
  split at taken
  · rename_i pc
    cases taken; exact h.congr rfl (by simp [batch, pc]) rfl rfl
  · rename_i pc
    cases taken; exact h.congr rfl (by simp [batch, pc]) rfl rfl
  · -- the swap
    rename_i pc
    cases taken
    simpa [InOrder, batch, pc] using h
  · rename_i pc
    cases taken; exact h.congr rfl (by simp [batch, pc]) rfl rfl
  · -- a functor moves from the batch to those that have run
    rename_i pc
    cases taken
    simpa [InOrder, batch, pc] using h
  · rename_i pc
    cases taken; exact h.congr rfl (by simp [batch, pc]) rfl rfl
  · rename_i pc
    cases taken
    refine h.congr rfl ?_ rfl rfl
    cases d.stop <;> simp [batch, pc]
  · cases taken

theorem InOrder.step (h : d.InOrder) {a : Act F} (taken : Steps exec d a d') : d'.InOrder := by
  unfold Steps EventDispatcher.step at taken
  split at taken
  · split at taken <;> cases taken
    exact h.push ..
  · split at taken <;> cases taken
    exact h.push ..
  · split at taken <;> cases taken
    exact h.congr rfl rfl rfl rfl
  · exact h.callerStep taken
  · split at taken <;> cases taken
    rename_i pc
    exact h.congr rfl (by simp [batch, pc]) rfl rfl
  · split at taken
    · rename_i pc
      split at taken <;> cases taken
      exact h.congr rfl (by simp [batch, pc]) rfl rfl
    · cases taken
  · exact h.loopStep taken

/-- In every run the functors run in the order of the calls that pushed them, none twice. -/
theorem inOrder_of_reaches {wakeupFd eventfd : Int} {world : W}
    (run : Transition.Reaches (Steps exec) Transition.Free (new wakeupFd eventfd world) d) :
    d.InOrder :=
  run.invariant rfl fun _ _ _ h _ taken => h.step taken

theorem InOrder.pending_not_ran (h : d.InOrder) {ticket : Nat}
    (pending : ticket ∈ d.pending.map Queued.ticket) : ticket ∉ d.ran := by
  have distinct : (d.ran ++ (d.batch ++ d.pending).map Queued.ticket).Nodup := by
    rw [h]
    exact List.nodup_range
  intro ran
  have later : ticket ∈ (d.batch ++ d.pending).map Queued.ticket := by
    rw [List.map_append]
    exact List.mem_append_right _ pending
  exact (List.nodup_append.mp distinct).2.2 ticket ran ticket later rfl

/-- The functors that wait to run, in order. -/
def queue (d : EventDispatcher F W) : List F := (d.batch ++ d.pending).map Queued.functor

theorem queue_push (i : Nat) (sync : Bool) (cb : F) : (d.push i sync cb).queue = d.queue ++ [cb] := by
  have held : (d.push i sync cb).batch = d.batch := rfl
  have pending : (d.push i sync cb).pending = d.pending ++ [Queued.mk d.nextTicket cb] := rfl
  simp [queue, held, pending]

/-! What each step does to the world and to the functors that wait. -/

theorem runInEvd_spec {i : Nat} {cb : F} (taken : Steps exec d (.runInEvd i cb) d') :
    d'.world = d.world ∧ d'.queue = d.queue ++ [cb] := by
  simp only [Steps, EventDispatcher.step] at taken
  split at taken <;> cases taken
  exact ⟨rfl, queue_push ..⟩

theorem syncRunInEvd_spec {i : Nat} {cb : F} (taken : Steps exec d (.syncRunInEvd i cb) d') :
    d'.world = d.world ∧ d'.queue = d.queue ++ [cb] := by
  simp only [Steps, EventDispatcher.step] at taken
  split at taken <;> cases taken
  exact ⟨rfl, queue_push ..⟩

theorem handler_spec {cb : F} (taken : Steps exec d (.handler cb) d') :
    d'.world = exec cb d.world ∧ d'.queue = d.queue := by
  simp only [Steps, EventDispatcher.step] at taken
  split at taken <;> cases taken
  rename_i pc
  exact ⟨rfl, by simp [queue, batch, pc]⟩

theorem caller_spec {i : Nat} (taken : Steps exec d (.caller i) d') :
    d'.world = d.world ∧ d'.queue = d.queue := by
  have kept : d.wakeup.world = d.world ∧ d.wakeup.queue = d.queue := by
    unfold wakeup
    split <;> exact ⟨rfl, rfl⟩
  have taken : d.callerStep i = some d' := taken
  unfold EventDispatcher.callerStep at taken
  split at taken
  · cases taken
  · cases taken; exact ⟨rfl, rfl⟩
  · split at taken <;> cases taken <;> exact ⟨rfl, rfl⟩
  · cases taken; exact kept
  · split at taken <;> cases taken <;> exact ⟨rfl, rfl⟩
  · cases taken; exact kept

theorem stop_spec {i : Nat} (taken : Steps exec d (.stop i) d') :
    d'.world = d.world ∧ d'.queue = d.queue := by
  simp only [Steps, EventDispatcher.step] at taken
  split at taken <;> cases taken
  exact ⟨rfl, rfl⟩

theorem wakeupRead_spec (taken : Steps exec d .wakeupRead d') :
    d'.world = d.world ∧ d'.queue = d.queue := by
  simp only [Steps, EventDispatcher.step] at taken
  split at taken
  · rename_i pc
    split at taken <;> cases taken
    simp [queue, batch, pc]
  · cases taken

theorem loop_spec (taken : Steps exec d .loop d') :
    (d'.world = d.world ∧ d'.queue = d.queue) ∨
    ∃ cb, (d.batch.map Queued.functor).head? = some cb ∧ d.queue = cb :: d'.queue ∧
      d'.world = exec cb d.world := by
  have taken : d.loopStep exec = some d' := taken
  unfold EventDispatcher.loopStep at taken
  split at taken
  · rename_i pc
    cases taken
    left
    simp [queue, batch, pc]
  · rename_i pc
    cases taken
    left
    simp [queue, batch, pc]
  · rename_i pc
    cases taken
    left
    simp [queue, batch, pc]
  · rename_i pc
    cases taken
    left
    simp [queue, batch, pc]
  · rename_i q rest pc
    cases taken
    refine .inr ⟨q.functor, ?_, ?_, rfl⟩
    · simp [batch, pc]
    · simp [queue, batch, pc]
  · rename_i pc
    cases taken
    left
    simp [queue, batch, pc]
  · rename_i pc
    cases taken
    left
    cases d.stop <;> simp [queue, batch, pc]
  · cases taken

theorem step_cases {a : Act F} (taken : Steps exec d a d') :
    (d'.world = d.world ∧ d'.queue = d.queue) ∨
    (∃ i cb, (a = .runInEvd i cb ∨ a = .syncRunInEvd i cb) ∧ d'.world = d.world ∧
      d'.queue = d.queue ++ [cb]) ∨
    (∃ cb, a = .loop ∧ (d.batch.map Queued.functor).head? = some cb ∧ d.queue = cb :: d'.queue ∧
      d'.world = exec cb d.world) ∨
    (∃ cb, a = .handler cb ∧ d'.queue = d.queue ∧ d'.world = exec cb d.world) := by
  cases a with
  | runInEvd i cb => exact .inr (.inl ⟨i, cb, .inl rfl, runInEvd_spec taken⟩)
  | syncRunInEvd i cb => exact .inr (.inl ⟨i, cb, .inr rfl, syncRunInEvd_spec taken⟩)
  | stop i => exact .inl (stop_spec taken)
  | caller i => exact .inl (caller_spec taken)
  | wakeupRead => exact .inl (wakeupRead_spec taken)
  | handler cb =>
    obtain ⟨world, queue⟩ := handler_spec taken
    exact .inr (.inr (.inr ⟨cb, rfl, queue, world⟩))
  | loop =>
    rcases loop_spec taken with still | ⟨cb, head, queue, world⟩
    · exact .inl still
    · exact .inr (.inr (.inl ⟨cb, rfl, head, queue, world⟩))

end EventDispatcher
end Yamq
