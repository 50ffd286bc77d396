import Yamq.Tcp.Closing

/-! How often a connection closes. The status test of `ForceClose` is made on the caller's thread and
the close later on the loop, and neither the functor nor the end of file looks at the status again. -/
namespace Yamq.Closing

open Transition Lifecycle

/-- The `ForceClose` calls that have passed their test and whose functors have not run. -/
def waiting (d : State) : Nat := (last d.world).closing.length + d.queue.count .close

/-- A `ForceClose` passes its test, and an end of file is handled, only while no `ForceClose` that
has passed its test waits for its functor to run. -/
def Alone (d : State) : Act → Prop
  | .forceClose _ => waiting d = 0
  | .handle .forceClose => (last d.world).status = .CONNECTED → waiting d = 0
  | .handle .handleEof => waiting d = 0
  | .loop => (d.batch.map Queued.functor).head? = some .forceClose →
      (last d.world).status = .CONNECTED → waiting d = 0
  | _ => True

instance aloneDecidable (d : State) : (a : Act) → Decidable (Alone d a)
  | .forceClose _ | .handle .handleEof => inferInstanceAs (Decidable (waiting d = 0))
  | .handle .forceClose => inferInstanceAs (Decidable (_ → _))
  | .loop => inferInstanceAs (Decidable (_ → _ → _))
  | .handle .establish | .handle (.send _ _) | .handle .close | .handle (.handleWrite _)
  | .handle (.register _) | .handle (.remove _) | .queueClose _ | .queue _ _ | .eraseConnect | .stop _
  | .caller _ | .wakeupRead => isTrue trivial

structure Single (d : State) : Prop where
  total : (last d.world).callbacks + waiting d ≤ 1
  removals : (last d.world).removals ≤ (last d.world).callbacks
  closes : (last d.world).closes ≤ (last d.world).callbacks
  shut : ∀ c, d.world = .ok c → 1 ≤ c.callbacks → c.status ≠ .CONNECTED ∧ ¬ c.Registered
  calls : ∀ f ∈ d.queue, f.queued = true ∨ f = .close ∨ f = .establish
  young : .establish ∈ d.queue → d.queue.count .establish = 1 ∧
    (last d.world).callbacks + waiting d = 0 ∧
    ∀ c, d.world = .ok c → c.status ≠ .CONNECTED ∧ ¬ c.Registered

section
variable {serving : Serving} {d d' : State} {f : LifeCall}

/-- A call in a connection that is not open yet, or not any more. -/
theorem Single.outside (h : Single d) {c c' : Lifecycle}
    (closed : c.status ≠ .CONNECTED ∧ ¬ c.Registered) (quiet : ¬ Shuts c f)
    (late : f ≠ .establish) (enabled : f ∈ d.queue ∨ f.Handled c)
    (done : f.run serving c = .ok c') : c'.status ≠ .CONNECTED ∧ ¬ c'.Registered := by
  have allowed : f.queued = true ∨ f.Handled c := by
    rcases enabled with member | handled
    · rcases h.calls f member with queued | rfl | rfl
      · exact .inl queued
      · exact absurd trivial quiet
      · exact absurd rfl late
    · exact .inr handled
  obtain ⟨status, gone⟩ := run_outside closed.1 closed.2 quiet allowed done
  exact ⟨by rw [status]; exact closed.1, gone⟩

/-- Before `establish` nothing closes the connection. -/
theorem Single.not_yet (h : Single d) (member : .establish ∈ d.queue) {c : Lifecycle}
    (here : d.world = .ok c) (enabled : f ∈ d.queue ∨ f.Handled c) : ¬ Shuts c f := by
  obtain ⟨_, none, closed⟩ := h.young member
  obtain ⟨status, gone⟩ := closed c here
  intro shuts
  cases f with
  | close =>
    rcases enabled with queued | handled
    · have some_ := List.count_pos_iff.mpr queued
      rw [waiting] at none
      omega
    · exact handled
  | forceClose => exact status shuts
  | handleEof =>
    rcases enabled with queued | handled
    · rcases h.calls _ queued with h | h | h <;> cases h
    · exact gone handled
  | establish | send _ _ | handleWrite _ | register _ | remove _ => exact shuts

/-- After the process has stopped the queue only gets shorter. -/
theorem Single.stopped (h : Single d) {s : Stopped} (here : d.world = .error s)
    (world : d'.world = .error s) (fewer : d'.queue.count .close ≤ d.queue.count .close)
    (old : ∀ g ∈ d'.queue, g ∈ d.queue)
    (one : LifeCall.establish ∈ d'.queue → d'.queue.count .establish = 1) : Single d' := by
  have same : last d'.world = last d.world := by rw [world, here]
  have total := h.total
  rw [waiting] at total
  refine ⟨?_, ?_, ?_, ?_, fun g member => h.calls g (old g member), ?_⟩
  · rw [waiting, same]
    omega
  · rw [same]
    exact h.removals
  · rw [same]
    exact h.closes
  · intro c running
    rw [world] at running
    cases running
  · intro member
    have none := (h.young (old _ member)).2.1
    rw [waiting] at none
    refine ⟨one member, ?_, ?_⟩
    · rw [waiting, same]
      omega
    · intro c running
      rw [world] at running
      cases running

/-- A call runs: the first of the queue, or one of a handler. -/
theorem Single.execute (h : Single d) (world : d'.world = exec serving f d.world)
    (queue : d.queue = f :: d'.queue ∨ d'.queue = d.queue ∧ f ≠ .establish)
    (enabled : ∀ c, d.world = .ok c → f ∈ d.queue ∨ f.Handled c)
    (room : ∀ c, d.world = .ok c → Shuts c f →
      c.callbacks = 0 ∧ c.closing.length + d'.queue.count .close = 0) : Single d' := by
  have fewer : d'.queue.count .close ≤ d.queue.count .close := by
    rcases queue with queue | ⟨queue, _⟩
    · rw [queue]
      exact List.count_le_count_cons
    · exact Nat.le_of_eq (by rw [queue])
  have old : ∀ g ∈ d'.queue, g ∈ d.queue := by
    intro g member
    rcases queue with queue | ⟨queue, _⟩
    · rw [queue]
      exact List.mem_cons_of_mem _ member
    · rwa [← queue]
  have calls : ∀ g ∈ d'.queue, g.queued = true ∨ g = .close ∨ g = .establish :=
    fun g member => h.calls g (old g member)
  -- an `establish` that still waits is not the call that runs
  have waits : LifeCall.establish ∈ d'.queue → f ≠ .establish ∧ d'.queue.count .establish = 1 := by
    intro member
    have one := (h.young (old _ member)).1
    rcases queue with queue | ⟨queue, other⟩
    · rw [queue, List.count_cons] at one
      have some_ := List.count_pos_iff.mpr member
      split at one
      · omega
      · rename_i different
        exact ⟨by simpa using different, one⟩
    · rw [queue]
      exact ⟨other, one⟩
  have total := h.total
  rw [waiting] at total
  cases here : d.world with
  | error s =>
    have same : d'.world = .error s := by rw [world, here]; rfl
    exact h.stopped here same fewer old fun member => (waits member).2
  | ok c =>
    have ran : d'.world = f.run serving c := by rw [world, here]; rfl
    have removals := h.removals
    have closes := h.closes
    rw [here] at total removals closes
    simp only [last] at total removals closes
    by_cases shuts : Shuts c f
    · obtain ⟨first, alone⟩ := room c here shuts
      have done := @run_shut serving _ _ shuts
      rw [← ran] at done
      have closing := done.closing
      have callbacks := done.callbacks
      have removals' := done.removals
      have closes' := done.closes
      have left : waiting d' = 0 := by
        rw [waiting, closing]
        exact alone
      refine ⟨by omega, by omega, by omega, ?_, calls, ?_⟩
      · intro c' running _
        obtain ⟨status, gone⟩ := run_closed shuts (ran.symm.trans running)
        exact ⟨by rw [status]; nofun, gone⟩
      · intro member
        exact absurd shuts (h.not_yet (old _ member) here (enabled c here))
    · have done := @run_keeps serving _ _ shuts
      rw [← ran] at done
      have closing := done.closing
      have callbacks := done.callbacks
      have removals' := done.removals
      have closes' := done.closes
      refine ⟨?_, by omega, by omega, ?_, calls, ?_⟩
      · rw [waiting, closing]
        omega
      · intro c' running some_
        have same : last d'.world = c' := by rw [running]; rfl
        rw [same] at callbacks
        have before : 1 ≤ c.callbacks := by omega
        have late : f ≠ .establish := by
          rintro rfl
          rcases queue with queue | ⟨_, other⟩
          · have none := (h.young (by rw [queue]; exact List.mem_cons_self)).2.1
            rw [here] at none
            simp only [last] at none
            omega
          · exact other rfl
        exact h.outside (h.shut c here before) shuts late (enabled c here)
          (ran.symm.trans running)
      · intro member
        obtain ⟨_, none, young⟩ := h.young (old _ member)
        rw [waiting, here] at none
        simp only [last] at none
        refine ⟨(waits member).2, ?_, ?_⟩
        · rw [waiting, closing]
          omega
        · intro c' running
          exact h.outside (young c here) shuts (waits member).1 (enabled c here)
            (ran.symm.trans running)

theorem Single.congr (h : Single d) (world : d'.world = d.world)
    (calls : ∀ g ∈ d'.queue, g ∈ d.queue ∨ g.queued = true)
    (closes : d'.queue.count .close = d.queue.count .close)
    (establishes : d'.queue.count .establish = d.queue.count .establish) : Single d' := by
  have waits : waiting d' = waiting d := by rw [waiting, waiting, world, closes]
  refine ⟨?_, ?_, ?_, ?_, ?_, ?_⟩
  · rw [world, waits]
    exact h.total
  · rw [world]
    exact h.removals
  · rw [world]
    exact h.closes
  · rw [world]
    exact h.shut
  · intro g member
    rcases calls g member with old | queued
    · exact h.calls g old
    · exact .inl queued
  · intro member
    have some_ := List.count_pos_iff.mpr member
    rw [establishes] at some_
    obtain ⟨one, none, young⟩ := h.young (List.count_pos_iff.mp some_)
    rw [establishes, waits, world]
    exact ⟨one, none, young⟩

theorem Single.still (h : Single d) (world : d'.world = d.world) (queue : d'.queue = d.queue) :
    Single d' :=
  h.congr world (fun g member => .inl (by rwa [← queue])) (by rw [queue]) (by rw [queue])

/-- A connection that is up has not been closed. -/
theorem Single.open_ (h : Single d) {c : Lifecycle} (here : d.world = .ok c)
    (up : c.status = .CONNECTED ∨ c.Registered) : c.callbacks = 0 := by
  by_contra some_
  obtain ⟨status, gone⟩ := h.shut c here (Nat.pos_of_ne_zero some_)
  rcases up with connected | registered
  · exact status connected
  · exact gone registered

theorem Single.test (h : Single d) {c : Lifecycle} (here : d.world = .ok c) {i : Nat}
    (connected : c.status = .CONNECTED) (alone : waiting d = 0)
    (world : d'.world = .ok { c with closing := c.closing ++ [i] }) (queue : d'.queue = d.queue) :
    Single d' := by
  have fresh := h.open_ here (.inl connected)
  have removals := h.removals
  have closes := h.closes
  rw [waiting, here] at alone
  rw [here] at removals closes
  simp only [last] at alone removals closes
  refine ⟨?_, ?_, ?_, ?_, queue ▸ h.calls, ?_⟩
  · rw [waiting, world, queue]
    simp only [last, List.length_append, List.length_singleton]
    omega
  · rw [world]
    exact removals
  · rw [world]
    exact closes
  · intro c' running some_
    rw [world] at running
    cases running
    exact absurd fresh (Nat.ne_of_gt some_)
  · intro member
    rw [queue] at member
    exact absurd connected ((h.young member).2.2 c here).1

theorem Single.erase (h : Single d) {c : Lifecycle} (here : d.world = .ok c)
    (world : d'.world = .ok { c with held := false, erasing := c.erasing - 1 })
    (queue : d'.queue = d.queue) : Single d' := by
  have total := h.total
  have removals := h.removals
  have closes := h.closes
  rw [waiting, here] at total
  rw [here] at removals closes
  refine ⟨?_, ?_, ?_, ?_, queue ▸ h.calls, ?_⟩
  · rw [waiting, world, queue]
    exact total
  · rw [world]
    exact removals
  · rw [world]
    exact closes
  · intro c' running some_
    rw [world] at running
    cases running
    exact h.shut c here some_
  · intro member
    rw [queue] at member
    obtain ⟨one, none, young⟩ := h.young member
    rw [waiting, here] at none
    rw [waiting, world, queue]
    refine ⟨one, none, ?_⟩
    intro c' running
    cases running
    exact young c here

theorem Single.queueClose (h : Single d) {c : Lifecycle} (here : d.world = .ok c) {i : Nat}
    (tested : i ∈ c.closing) (world : d'.world = .ok { c with closing := c.closing.erase i })
    (queue : d'.queue = d.queue ++ [.close]) : Single d' := by
  have total := h.total
  have removals := h.removals
  have closes := h.closes
  rw [waiting, here] at total
  rw [here] at removals closes
  simp only [last] at total removals closes
  have some_ := List.length_pos_of_mem tested
  have fewer := List.length_erase_of_mem tested
  have more : d'.queue.count .close = d.queue.count .close + 1 := by simp [queue]
  refine ⟨?_, ?_, ?_, ?_, ?_, ?_⟩
  · rw [waiting, world, more]
    simp only [last]
    omega
  · rw [world]
    exact removals
  · rw [world]
    exact closes
  · intro c' running after
    rw [world] at running
    cases running
    exact h.shut c here after
  · intro g member
    rw [queue, List.mem_append, List.mem_singleton] at member
    rcases member with old | rfl
    · exact h.calls g old
    · exact .inr (.inl rfl)
  · intro member
    rw [queue, List.mem_append, List.mem_singleton] at member
    rcases member with old | new
    · have none := (h.young old).2.1
      rw [waiting, here] at none
      simp only [last] at none
      omega
    · cases new

theorem Single.step (h : Single d) {a : Act} (alone : Alone d a) (taken : Steps serving d a d') :
    Single d' := by
  obtain ⟨c, here, change⟩ := step_change taken
  have known : last d.world = c := by rw [here]; rfl
  cases change with
  | still world queue => exact h.still world queue
  | test connected world queue => exact h.test here connected alone world queue
  | queueClose tested world queue => exact h.queueClose here tested world queue
  | @queue i call free world queue =>
    have other : call ≠ .close ∧ call ≠ .establish := by
      constructor <;> rintro rfl <;> cases free
    apply h.congr world
    · intro g member
      rw [queue, List.mem_append, List.mem_singleton] at member
      rcases member with old | rfl
      · exact .inl old
      · exact .inr free
    · simp [queue, other.1]
    · simp [queue, other.2]
  | @handle call handled world queue =>
    apply h.execute world
    · refine .inr ⟨queue, ?_⟩
      rintro rfl
      exact handled
    · intro c' running
      cases here.symm.trans running
      exact .inr handled
    · intro c' running shuts
      cases here.symm.trans running
      have quiet : waiting d = 0 ∧ c.callbacks = 0 := by
        cases call with
        | close => exact absurd handled not_false
        | forceClose => exact ⟨alone (by rw [known]; exact shuts), h.open_ here (.inl shuts)⟩
        | handleEof => exact ⟨alone, h.open_ here (.inr handled)⟩
        | establish | send _ _ | handleWrite _ | register _ | remove _ =>
          exact absurd shuts not_false
      rw [waiting, known, ← queue] at quiet
      exact ⟨quiet.2, quiet.1⟩
  | erase _ world queue => exact h.erase here world queue
  | @run f head queue world =>
    have member : f ∈ d.queue := by
      rw [queue]
      exact List.mem_cons_self
    apply h.execute world (.inl queue) (fun _ _ => .inl member)
    intro c' running shuts
    cases here.symm.trans running
    have total := h.total
    rw [waiting, known] at total
    have fewer := @List.count_le_count_cons _ _ LifeCall.close f d'.queue
    rw [← queue] at fewer
    rcases h.calls f member with queued | rfl | rfl
    · cases f with
      | forceClose =>
        have quiet := alone head (by rw [known]; exact shuts)
        rw [waiting, known] at quiet
        exact ⟨h.open_ here (.inl shuts), by omega⟩
      | send data result => exact absurd shuts not_false
      | establish | close | handleEof | handleWrite _ | register _ | remove _ => cases queued
    · rw [queue, List.count_cons_self] at total
      exact ⟨by omega, by omega⟩
    · exact absurd shuts not_false

end

theorem newConnect_untouched (serving : Serving) {c : Lifecycle}
    (untouched : c.closing = [] ∧ c.callbacks = 0 ∧ c.removals = 0 ∧ c.closes = 0) :
    (last (c.newConnect serving)).closing = [] ∧ (last (c.newConnect serving)).callbacks = 0 ∧
      (last (c.newConnect serving)).removals = 0 ∧ (last (c.newConnect serving)).closes = 0 := by
  have lifted (b : Lifecycle) (run : Except Fault Endpoint)
      (none : b.closing = [] ∧ b.callbacks = 0 ∧ b.removals = 0 ∧ b.closes = 0) :
      (last (b.lift run)).closing = [] ∧ (last (b.lift run)).callbacks = 0 ∧
        (last (b.lift run)).removals = 0 ∧ (last (b.lift run)).closes = 0 := by
    have kept := lift_keeps b run
    exact ⟨kept.closing.trans none.1, kept.callbacks.trans none.2.1, kept.removals.trans none.2.2.1,
      kept.closes.trans none.2.2.2⟩
  cases serving with
  | single =>
    apply last_bind (P := fun l => l.closing = [] ∧ l.callbacks = 0 ∧ l.removals = 0 ∧ l.closes = 0)
    · exact lifted c _ untouched
    · exact fun x _ none => lifted { x with held := true } _ none
  | alone =>
    apply last_bind (P := fun l => l.closing = [] ∧ l.callbacks = 0 ∧ l.removals = 0 ∧ l.closes = 0)
    · exact lifted c _ untouched
    · exact fun x _ none => none
  | worker => exact untouched

theorem start_single (serving : Serving) (wakeupFd eventfd : Int) (main : Nat) (regs : Registrations)
    (self : Nat) (fd id : Int) (fresh : regs.channels fd ≠ some self) :
    Single (start serving wakeupFd eventfd main (.new regs self fd id)) := by
  obtain ⟨closing, callbacks, removals, closes⟩ := @newConnect_untouched serving
    (.new regs self fd id) ⟨rfl, rfl, rfl, rfl⟩
  have ready : Single (.new wakeupFd eventfd ((Lifecycle.new regs self fd id).newConnect serving)) := by
    refine ⟨?_, ?_, ?_, ?_, ?_, ?_⟩
    · simp [EventDispatcher.new, waiting, closing, callbacks, EventDispatcher.queue,
        EventDispatcher.batch]
    · exact Nat.le_of_eq (removals.trans callbacks.symm)
    · exact Nat.le_of_eq (closes.trans callbacks.symm)
    · intro c running some_
      have same : last ((Lifecycle.new regs self fd id).newConnect serving) = c := by
        rw [show (Lifecycle.new regs self fd id).newConnect serving = .ok c from running]
        rfl
      rw [same] at callbacks
      omega
    · intro f member
      cases member
    · intro member
      cases member
  cases serving with
  | single => exact ready
  | alone => exact ready
  | worker =>
    refine ⟨Nat.zero_le 1, Nat.le_refl 0, Nat.le_refl 0, ?_, ?_, ?_⟩
    · intro c running some_
      cases running
      cases some_
    · intro f member
      exact .inr (.inr (List.mem_singleton.mp member))
    · intro _
      refine ⟨rfl, rfl, ?_⟩
      intro c running
      cases running
      refine ⟨?_, fresh⟩
      intro connected
      cases connected

/-- In every run in which no `ForceClose` and no end of file comes between the test and the functor of
another `ForceClose`, the connection is closed at most once. -/
theorem closes_at_most_once (serving : Serving) (wakeupFd eventfd : Int) (main : Nat)
    (regs : Registrations) (self : Nat) (fd id : Int) (fresh : regs.channels fd ≠ some self) (d : State)
    (run : Reaches (Steps serving) Alone
      (start serving wakeupFd eventfd main (.new regs self fd id)) d) :
    (last d.world).callbacks ≤ 1 ∧ (last d.world).removals ≤ 1 ∧ (last d.world).closes ≤ 1 := by
  have init := start_single serving wakeupFd eventfd main regs self fd id fresh
  have kept := run.invariant init fun _ _ _ h alone taken => h.step alone taken
  have total := kept.total
  have removals := kept.removals
  have closes := kept.closes
  exact ⟨by omega, by omega, by omega⟩

/-- A thread closes the connection of a worker. Behind its functor stands a `ForceClose` that another
thread has queued, and finds the connection closed. -/
theorem closes_at_most_once_queued : ∃ d, Reaches (Steps .worker) Alone
    (start .worker 0 7 0 (.new noRegs 0 5 1)) d ∧ (last d.world).closes = 1 ∧
      d.queue = [] ∧ (last d.world).held = false ∧
      (last d.world).callbacks ≤ 1 ∧ (last d.world).removals ≤ 1 ∧ (last d.world).closes ≤ 1 := by
  let labels : List Act := [.loop, .loop, .loop, .loop, .forceClose 1, .queueClose 1,
    .queue 2 .forceClose, .loop, .loop, .loop, .loop, .loop, .loop, .loop, .loop, .eraseConnect]
  have run := Reaches.of_checked (step .worker) (fun d a => decide (Alone d a))
    (fun _ _ => of_decide_eq_true) labels (s := start .worker 0 7 0 (.new noRegs 0 5 1)) rfl
  exact ⟨_, run, rfl, rfl, rfl, closes_at_most_once .worker 0 7 0 noRegs 0 5 1 nofun _ run⟩

/-- Two threads find the connection of a worker connected, and both queue the close. -/
theorem closes_twice : ∃ d, Reaches (Steps .worker) Free
    (start .worker 0 7 0 (.new noRegs 0 5 1)) d ∧ noRegs.channels 5 ≠ some 0 ∧
      (last d.world).callbacks = 2 ∧ (last d.world).removals = 2 := by
  have run := @Reaches.of_labels _ _ (step .worker) [.loop, .loop, .loop, .loop, .forceClose 1,
    .forceClose 2, .queueClose 1, .queueClose 2, .loop, .loop, .loop, .loop, .loop, .loop, .loop, .loop]
    (start .worker 0 7 0 (.new noRegs 0 5 1)) _ rfl
  exact ⟨_, run, nofun, rfl, rfl⟩

end Yamq.Closing
