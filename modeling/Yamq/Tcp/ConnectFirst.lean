import Yamq.Tcp.Closing
import Yamq.Tcp.ServerMulti

/-! `multi::Server::newConnect` step by step on the main loop, with the loop of the connection beside
it. With workers, `establish` is queued to another loop before the connect callback is called. -/
namespace Yamq

/-- Where `newConnect` stands. -/
inductive ConnectPc where
  | created
  | queued     -- `RunInEvd` has been called
  | inserted   -- `_connections` has the connection
  | calling    -- in the connect callback
  | returned
deriving DecidableEq, Repr

structure Joining where
  evd : Closing.State
  pc : ConnectPc := .created
  /-- bytes or the end of file have come from the peer -/
  arrived : Bool := false
  /-- the calls of the message callback -/
  messages : Nat := 0

/-- Whether the connection that comes next runs on the main loop. -/
def Dispatchers.serving (s : Dispatchers) : Serving :=
  match s.nextEvd with
  | .ok (evd, _) => if evd = s.evd then .alone else .worker
  | .error _ => .worker

theorem Dispatchers.serving_alone {s : Dispatchers} (valid : s.Valid) :
    s.serving = .alone ↔ s.evds = [] := by
  obtain ⟨evd, t, run, _, _, _, main⟩ := nextEvd_spec valid
  rw [← main, serving, run]
  by_cases same : evd = s.evd <;> simp [same]

namespace ConnectFirst

open Transition Closing

inductive Act where
  | newConnect             -- the next step of `newConnect`
  | arrive
  | read                   -- `HandleRead` with bytes, which calls the message callback
  | evd (act : Closing.Act)

section
variable (s : Dispatchers) (main : Nat)

def newConnect (j : Joining) (c : Lifecycle) : Option Joining :=
  match j.pc with
  | .created =>
    let evd := match s.serving with
      | .worker => EventDispatcher.step (exec .worker) j.evd (.runInEvd main .establish)
      | serving => EventDispatcher.step (exec serving) j.evd (.handler .establish)
    evd.map fun evd => { j with evd := evd, pc := .queued }
  | .queued =>
    if j.evd.callers main = .idle then
      some { j with evd := { j.evd with world := .ok { c with held := true } }, pc := .inserted }
    else none
  | .inserted => some { j with pc := .calling }
  | .calling => if j.evd.callers main = .idle then some { j with pc := .returned } else none
  | .returned => none

/-- The loop of the connection is not in `newConnect` itself. -/
def loopFree (j : Joining) : Bool := s.serving == .worker || j.pc == .returned

/-- What threads and handlers can do: they know the connection from `_connections`, and the main
thread and the handlers of its own loop from the connect callback. -/
def allowed (j : Joining) : Closing.Act → Bool
  | .forceClose i => j.pc == .calling || j.pc == .returned || (j.pc == .inserted && i != main)
  | .queue i _ => j.pc == .calling || j.pc == .returned || (j.pc == .inserted && i != main)
  | .handle .handleEof => loopFree s j && j.arrived
  | .handle .forceClose => loopFree s j || j.pc == .calling
  | .handle (.send ..) => loopFree s j || j.pc == .calling
  | .handle _ => loopFree s j
  | .eraseConnect => j.pc == .returned
  | .wakeupRead => loopFree s j
  | .loop => loopFree s j
  | .queueClose _ => true
  | .stop _ => true
  | .caller _ => true

def step (j : Joining) (a : Act) : Option Joining :=
  match j.evd.world with
  | .error _ => none
  | .ok c =>
    match a with
    | .newConnect => newConnect s main j c
    | .arrive => some { j with arrived := true }
    | .read =>
      if j.evd.loop = .handling ∧ loopFree s j = true ∧ j.arrived = true ∧ c.Registered then
        some { j with messages := j.messages + 1 }
      else none
    | .evd a =>
      if allowed s main j a = true then
        (Closing.step s.serving j.evd a).map fun evd => { j with evd := evd }
      else none

def Steps (j : Joining) (a : Act) (j' : Joining) : Prop := step s main j a = some j'

/-- The main loop is in `newConnect`. If the connection gets a worker, that is anywhere. -/
def start (wakeupFd eventfd : Int) (c : Lifecycle) : Joining :=
  { evd := { EventDispatcher.new wakeupFd eventfd (.ok c) with
      loop := if s.serving = .worker then .selecting else .handling } }

end

/-- No message or close callback has been called before the connect callback has returned. -/
def CalledInOrder (j : Joining) : Prop :=
  0 < j.messages ∨ 0 < (last j.evd.world).callbacks → j.pc = .returned

/-- `establish` has run on the connection. -/
def Up (j : Joining) : Prop :=
  (last j.evd.world).status = .CONNECTED ∨ (last j.evd.world).Registered

/-- On a worker's loop the connection does not become readable before the connect callback has
returned: of `establish` and the first arrival from the peer, the later one comes after it. And no
`ForceClose` passes its test before. -/
def Unhurried (s : Dispatchers) (j : Joining) : Act → Prop
  | .arrive => s.serving = .worker → Up j → j.pc = .returned
  | .evd .loop => ((j.evd.batch.map Queued.functor).head? = some .establish → j.arrived = true →
      j.pc = .returned) ∧ ((j.evd.batch.map Queued.functor).head? = some .forceClose →
      (last j.evd.world).status = .CONNECTED → j.pc = .returned)
  | .evd (.forceClose _) => j.pc = .returned
  | .evd (.handle .forceClose) => (last j.evd.world).status = .CONNECTED → j.pc = .returned
  | _ => True

/-- Before the connect callback has returned. -/
structure Quiet (s : Dispatchers) (j : Joining) : Prop where
  messages : j.messages = 0
  callbacks : (last j.evd.world).callbacks = 0
  closing : (last j.evd.world).closing = []
  calls : ∀ f ∈ j.evd.queue, f.queued = true ∨ f = .establish
  unread : s.serving = .worker → j.arrived = true → ∀ c, j.evd.world = .ok c →
    c.status ≠ .CONNECTED ∧ ¬ c.Registered

section
variable {s : Dispatchers} {main : Nat} {j j' : Joining} {f : LifeCall}

/-- A call runs on the loop of the connection and closes nothing. -/
theorem Quiet.execute (h : Quiet s j) {serving : Serving}
    (world : j'.evd.world = exec serving f j.evd.world) (queue : ∀ g ∈ j'.evd.queue, g ∈ j.evd.queue)
    (messages : j'.messages = j.messages) (arrived : j'.arrived = j.arrived)
    (quiet : ∀ c, j.evd.world = .ok c → ¬ Shuts c f)
    (later : f = .establish → s.serving = .worker → j.arrived = false)
    (enabled : ∀ c, j.evd.world = .ok c → f.queued = true ∨ f.Handled c ∨ f = .establish) :
    Quiet s j' := by
  have kept : (last j'.evd.world).callbacks = (last j.evd.world).callbacks ∧
      (last j'.evd.world).closing = (last j.evd.world).closing := by
    cases here : j.evd.world with
    | error e =>
      rw [world, here]
      exact ⟨rfl, rfl⟩
    | ok c =>
      have done := @run_keeps serving c f (quiet c here)
      rw [world, here]
      exact ⟨done.callbacks, done.closing⟩
  refine ⟨messages.trans h.messages, kept.1.trans h.callbacks, kept.2.trans h.closing,
    fun g member => h.calls g (queue g member), ?_⟩
  intro worker some_ c' running
  rw [arrived] at some_
  rw [running] at world
  obtain ⟨c, here, done⟩ := bind_eq_ok.mp world.symm
  obtain ⟨free, gone⟩ := h.unread worker some_ c here
  have late : f ≠ .establish := by
    intro same
    rw [later same worker] at some_
    cases some_
  have allowed : f.queued = true ∨ f.Handled c := by
    rcases enabled c here with queued | handled | same
    · exact .inl queued
    · exact .inr handled
    · exact absurd same late
  obtain ⟨status, away⟩ := run_outside free gone (quiet c here) allowed done
  exact ⟨by rw [status]; exact free, away⟩

theorem Quiet.still (h : Quiet s j) (world : j'.evd.world = j.evd.world)
    (calls : ∀ g ∈ j'.evd.queue, g ∈ j.evd.queue ∨ g.queued = true ∨ g = .establish)
    (messages : j'.messages = j.messages) (arrived : j'.arrived = j.arrived) : Quiet s j' := by
  refine ⟨messages.trans h.messages, world ▸ h.callbacks, world ▸ h.closing, ?_, ?_⟩
  · intro g member
    rcases calls g member with old | new
    · exact h.calls g old
    · exact new
  · intro worker some_
    rw [world]
    exact h.unread worker (arrived ▸ some_)

theorem serving_cases (s : Dispatchers) : s.serving = .alone ∨ s.serving = .worker := by
  unfold Dispatchers.serving
  split
  · split
    · exact .inl rfl
    · exact .inr rfl
  · exact .inr rfl

theorem Quiet.newConnect (h : Quiet s j) {c : Lifecycle} (here : j.evd.world = .ok c)
    (before : j.pc ≠ .returned) (taken : newConnect s main j c = some j') : Quiet s j' := by
  unfold ConnectFirst.newConnect at taken
  cases pc : j.pc with
  | created =>
    simp only [pc, Option.map_eq_some_iff] at taken
    obtain ⟨evd, ran, rfl⟩ := taken
    rcases serving_cases s with alone | worker
    · simp only [alone] at ran
      obtain ⟨world, queue⟩ := EventDispatcher.handler_spec ran
      refine h.execute world (fun g member => by rwa [← queue]) rfl rfl (fun _ _ => not_false) ?_ ?_
      · intro _ other
        rw [alone] at other
        cases other
      · intro _ _
        exact .inr (.inr rfl)
    · simp only [worker] at ran
      obtain ⟨world, queue⟩ := EventDispatcher.runInEvd_spec ran
      refine h.still world ?_ rfl rfl
      intro g member
      have member : g ∈ evd.queue := member
      rw [queue, List.mem_append, List.mem_singleton] at member
      rcases member with old | new
      · exact .inl old
      · exact .inr (.inr new)
  | queued =>
    simp only [pc] at taken
    split at taken <;> cases taken
    have callbacks := h.callbacks
    have closing := h.closing
    rw [here] at callbacks closing
    refine ⟨h.messages, callbacks, closing, h.calls, ?_⟩
    intro worker some_ c' running
    cases running
    exact h.unread worker some_ c here
  | inserted =>
    simp only [pc] at taken
    cases taken
    exact ⟨h.messages, h.callbacks, h.closing, h.calls, h.unread⟩
  | calling =>
    simp only [pc] at taken
    split at taken <;> cases taken
    exact ⟨h.messages, h.callbacks, h.closing, h.calls, h.unread⟩
  | returned => exact absurd pc before

/-- A step on the loop, or of a thread, that the condition allows. -/
theorem Quiet.evd (h : Quiet s j) {c : Lifecycle} (here : j.evd.world = .ok c)
    (before : j.pc ≠ .returned) {a : Closing.Act} (unhurried : Unhurried s j (.evd a))
    (can : allowed s main j a = true) {evd : Closing.State}
    (taken : Closing.Steps s.serving j.evd a evd) : Quiet s { j with evd := evd } := by
  have known : last j.evd.world = c := by rw [here]; rfl
  have busy (free : loopFree s j = true) : s.serving = .worker := by
    simpa [loopFree, before] using free
  obtain ⟨c', same, change⟩ := step_change taken
  cases here.symm.trans same
  cases change with
  | still world queue => exact h.still world (fun g member => .inl (by rwa [← queue])) rfl rfl
  | test connected => exact absurd unhurried before
  | queueClose tested =>
    have none := h.closing
    rw [known] at none
    rw [none] at tested
    cases tested
  | queue free world queue =>
    refine h.still world ?_ rfl rfl
    intro g member
    have member : g ∈ evd.queue := member
    rw [queue, List.mem_append, List.mem_singleton] at member
    rcases member with old | rfl
    · exact .inl old
    · exact .inr (.inl free)
  | @handle call handled world queue =>
    refine h.execute world (fun g member => by rwa [← queue]) rfl rfl ?_ ?_ ?_
    · intro c' running shuts
      cases here.symm.trans running
      cases call with
      | close => exact handled
      | forceClose => exact before (unhurried (by rw [known]; exact shuts))
      | handleEof =>
        simp only [allowed, Bool.and_eq_true] at can
        exact (h.unread (busy can.1) can.2 c here).2 handled
      | establish | send _ _ | handleWrite _ | register _ | remove _ => exact shuts
    · rintro rfl
      exact absurd handled not_false
    · intro c' running
      cases here.symm.trans running
      exact .inr (.inl handled)
  | erase =>
    simp only [allowed, beq_iff_eq] at can
    exact absurd can before
  | @run f head queue world =>
    have member : f ∈ j.evd.queue := by
      rw [queue]
      exact List.mem_cons_self
    have kind := h.calls f member
    refine h.execute world ?_ rfl rfl ?_ ?_ ?_
    · intro g old
      rw [queue]
      exact List.mem_cons_of_mem _ old
    · intro c' running shuts
      cases here.symm.trans running
      rcases kind with queued | rfl
      · cases f with
        | forceClose => exact before (unhurried.2 head (by rw [known]; exact shuts))
        | send _ _ => exact shuts
        | establish | close | handleEof | handleWrite _ | register _ | remove _ => cases queued
      · exact shuts
    · rintro rfl worker
      by_contra some_
      exact before (unhurried.1 head (by simpa using some_))
    · intro _ _
      rcases kind with queued | same
      · exact .inl queued
      · exact .inr (.inr same)

theorem Quiet.step (h : Quiet s j) (before : j.pc ≠ .returned) {a : Act}
    (unhurried : Unhurried s j a) (taken : Steps s main j a j') : Quiet s j' := by
  unfold Steps ConnectFirst.step at taken
  cases here : j.evd.world with
  | error e => simp [here] at taken
  | ok c =>
    have known : last j.evd.world = c := by rw [here]; rfl
    simp only [here] at taken
    cases a with
    | newConnect => exact h.newConnect here before taken
    | arrive =>
      cases taken
      refine ⟨h.messages, h.callbacks, h.closing, h.calls, ?_⟩
      intro worker _ c' running
      cases here.symm.trans running
      have down : ¬ Up j := fun up => before (unhurried worker up)
      rw [Up, known, not_or] at down
      exact down
    | read =>
      simp only at taken
      split at taken
      · rename_i ready
        have worker : s.serving = .worker := by
          simpa [loopFree, before] using ready.2.1
        exact absurd ready.2.2.2 (h.unread worker ready.2.2.1 c here).2
      · cases taken
    | evd a =>
      simp only at taken
      split at taken
      · rename_i can
        obtain ⟨evd, ran, rfl⟩ := Option.map_eq_some_iff.mp taken
        exact h.evd here before unhurried can ran
      · cases taken

theorem returned_stays (returned : j.pc = .returned) {a : Act} (taken : Steps s main j a j') :
    j'.pc = .returned := by
  unfold Steps ConnectFirst.step at taken
  split at taken
  · cases taken
  · split at taken
    · simp [ConnectFirst.newConnect, returned] at taken
    · cases taken
      exact returned
    · split at taken <;> cases taken
      exact returned
    · split at taken
      · obtain ⟨evd, _, rfl⟩ := Option.map_eq_some_iff.mp taken
        exact returned
      · cases taken

end

/-- For every number of workers, and every run in which the connection becomes readable on a worker's
loop only after the connect callback has returned: no other callback comes before that. -/
theorem connect_called_first (s : Dispatchers) (main : Nat) (wakeupFd eventfd : Int)
    (regs : Registrations) (self : Nat) (fd id : Int) (j : Joining)
    (run : Reaches (Steps s main) (Unhurried s) (start s wakeupFd eventfd (.new regs self fd id)) j) :
    CalledInOrder j := by
  have init : Quiet s (start s wakeupFd eventfd (.new regs self fd id)) := by
    refine ⟨rfl, rfl, rfl, ?_, nofun⟩
    intro f member
    have none : (start s wakeupFd eventfd (.new regs self fd id)).evd.queue = [] := by
      cases serving : s.serving <;> simp [start, serving, EventDispatcher.queue,
        EventDispatcher.batch, EventDispatcher.new]
    rw [none] at member
    cases member
  have keep (x : Joining) (a : Act) (y : Joining) (h : x.pc = .returned ∨ Quiet s x)
      (unhurried : Unhurried s x a) (taken : Steps s main x a y) :
      y.pc = .returned ∨ Quiet s y := by
    by_cases returned : x.pc = .returned
    · exact .inl (returned_stays returned taken)
    · exact .inr ((h.resolve_left returned).step returned unhurried taken)
  have kept := run.invariant (.inr init) keep
  rcases kept with returned | quiet
  · exact fun _ => returned
  · intro called
    have messages := quiet.messages
    have callbacks := quiet.callbacks
    omega

/-- The condition is exact once the loop handles events: a connection that is readable on its worker's
loop too early gets its message callback too early. -/
theorem early_message {s : Dispatchers} {main : Nat} {j : Joining} {c : Lifecycle}
    (worker : s.serving = .worker) (here : j.evd.world = .ok c) (registered : c.Registered)
    (arrived : j.arrived = true) (handling : j.evd.loop = .handling) (early : j.pc ≠ .returned) :
    ∃ j', Steps s main j .read j' ∧ ¬ CalledInOrder j' := by
  have free : loopFree s j = true := by simp [loopFree, worker]
  refine ⟨{ j with messages := j.messages + 1 }, ?_, ?_⟩
  · rw [Steps, step]
    simp only [here]
    rw [if_pos ⟨handling, free, arrived, registered⟩]
  · intro inOrder
    exact early (inOrder (.inl (Nat.succ_pos _)))

/-- A connection on a worker: `newConnect` returns, `establish` runs, and a message comes. -/
theorem connect_called_first_worker : ∃ j, Reaches (Steps (.start 1) 0) (Unhurried (.start 1))
    (start (.start 1) 0 7 (.new noRegs 0 5 1)) j ∧ j.messages = 1 ∧ CalledInOrder j := by
  have next {j j' : Joining} (a : Act) (run : Reaches (Steps (.start 1) 0) (Unhurried (.start 1))
      (start (.start 1) 0 7 (.new noRegs 0 5 1)) j) (unhurried : Unhurried (.start 1) j a)
      (taken : step (.start 1) 0 j a = some j') : Reaches (Steps (.start 1) 0)
        (Unhurried (.start 1)) (start (.start 1) 0 7 (.new noRegs 0 5 1)) j' := run.step unhurried taken
  have queued := next .newConnect .start trivial rfl
  have cleared := next (.evd (.caller 0)) queued trivial rfl
  have idle := next (.evd (.caller 0)) cleared trivial rfl
  have inserted := next .newConnect idle trivial rfl
  have calling := next .newConnect inserted trivial rfl
  have returned := next .newConnect calling trivial rfl
  have selected := next (.evd .loop) returned ⟨fun _ _ => rfl, fun _ _ => rfl⟩ rfl
  have called := next (.evd .loop) selected ⟨fun _ _ => rfl, fun _ _ => rfl⟩ rfl
  have swapped := next (.evd .loop) called ⟨fun _ _ => rfl, fun _ _ => rfl⟩ rfl
  have established := next (.evd .loop) swapped ⟨fun _ _ => rfl, fun _ _ => rfl⟩ rfl
  have arrived := next .arrive established (fun _ _ => rfl) rfl
  have done := next (.evd .loop) arrived ⟨fun _ _ => rfl, fun _ _ => rfl⟩ rfl
  have stored := next (.evd .loop) done ⟨fun _ _ => rfl, fun _ _ => rfl⟩ rfl
  have again := next (.evd .loop) stored ⟨fun _ _ => rfl, fun _ _ => rfl⟩ rfl
  have handling := next (.evd .loop) again ⟨fun _ _ => rfl, fun _ _ => rfl⟩ rfl
  have read := next .read handling trivial rfl
  exact ⟨_, read, rfl, connect_called_first _ _ _ _ _ _ _ _ _ read⟩

/-- The worker establishes the connection and reads while `newConnect` has not got further than the
queueing. -/
theorem message_called_first : ∃ j, Reaches (Steps (.start 1) 0) Free
    (start (.start 1) 0 7 (.new noRegs 0 5 1)) j ∧ j.messages = 1 ∧ j.pc = .queued ∧
      ¬ CalledInOrder j := by
  have run := @Reaches.of_labels _ _ (step (.start 1) 0) [.newConnect, .evd .loop, .evd .loop,
    .evd .loop, .evd .loop, .arrive, .evd .loop, .evd .loop, .evd .loop, .evd .loop, .read]
    (start (.start 1) 0 7 (.new noRegs 0 5 1)) _ rfl
  refine ⟨_, run, rfl, rfl, ?_⟩
  intro inOrder
  cases inOrder (.inl Nat.one_pos)

end ConnectFirst
end Yamq
