import Yamq.Tcp.Closing

/-! When the last reference to a connection goes. `ForceClose` passes the descriptor to `::close`, the
end of file does not, and the destructor does nothing. -/
namespace Yamq.Closing

open Transition Lifecycle

/-- No end of file is handled. -/
def NoEof (_ : State) : Act → Prop
  | .handle .handleEof => False
  | _ => True

/-- No table, functor or `ForceClose` holds the connection any more. -/
structure Dropped (d : State) (c : Lifecycle) : Prop where
  held : c.held = false
  erasing : c.erasing = 0
  closing : c.closing = []
  queue : d.queue = []

structure Counted (d : State) : Prop where
  calls : ∀ f ∈ d.queue, f ≠ .handleEof
  closed : ∀ c, d.world = .ok c → c.held = false ∨ 0 < c.erasing → 1 ≤ c.closes

section
variable {serving : Serving} {d d' : State} {f : LifeCall}

/-- Only an end of file drops the connection without `::close`. -/
theorem run_counted {c c' : Lifecycle} (other : f ≠ .handleEof) (done : f.run serving c = .ok c') :
    (c'.held = c.held ∧ c'.erasing = c.erasing ∧ c'.closes = c.closes) ∨ 1 ≤ c'.closes := by
  have closing {c c' : Lifecycle} (done : c.close serving = .ok c') : 1 ≤ c'.closes := by
    obtain ⟨x, _, done⟩ := bind_eq_ok.mp done
    cases done
    exact Nat.le_add_left ..
  by_cases shuts : Shuts c f
  · right
    cases f with
    | close => exact closing done
    | handleEof => exact absurd rfl other
    | forceClose =>
      have connected : c.status = .CONNECTED := shuts
      rw [LifeCall.run, forceClose, if_neg (not_not_intro connected)] at done
      exact closing done
    | establish | send _ _ | handleWrite _ | register _ | remove _ => exact absurd shuts not_false
  · left
    have kept := @run_keeps serving _ _ shuts
    rw [done] at kept
    exact ⟨kept.held, kept.erasing, kept.closes⟩

theorem Counted.still (h : Counted d) (world : d'.world = d.world) (queue : d'.queue = d.queue) :
    Counted d' :=
  ⟨queue ▸ h.calls, world ▸ h.closed⟩

theorem Counted.execute (h : Counted d) (world : d'.world = exec serving f d.world)
    (queue : ∀ g ∈ d'.queue, g ∈ d.queue) (other : f ≠ .handleEof) : Counted d' := by
  refine ⟨fun g member => h.calls g (queue g member), ?_⟩
  intro c' running gone
  rw [running] at world
  obtain ⟨c, here, done⟩ := bind_eq_ok.mp world.symm
  rcases run_counted other done with ⟨held, erasing, closes⟩ | closed
  · rw [held, erasing] at gone
    rw [closes]
    exact h.closed c here gone
  · exact closed

theorem Counted.step (h : Counted d) {a : Act} (clean : NoEof d a) (taken : Steps serving d a d') :
    Counted d' := by
  obtain ⟨c, here, change⟩ := step_change taken
  have closed := h.closed c here
  cases change with
  | still world queue => exact h.still world queue
  | test _ world queue =>
    refine ⟨queue ▸ h.calls, ?_⟩
    intro c' running
    cases world.symm.trans running
    exact closed
  | queueClose _ world queue =>
    refine ⟨?_, ?_⟩
    · intro g member
      rw [queue, List.mem_append, List.mem_singleton] at member
      rcases member with old | rfl
      · exact h.calls g old
      · nofun
    · intro c' running
      cases world.symm.trans running
      exact closed
  | queue free world queue =>
    refine ⟨?_, world ▸ h.closed⟩
    intro g member
    rw [queue, List.mem_append, List.mem_singleton] at member
    rcases member with old | rfl
    · exact h.calls g old
    · rintro rfl
      cases free
  | handle _ world queue =>
    apply h.execute world (fun g member => by rwa [← queue])
    rintro rfl
    exact clean
  | erase some_ world queue =>
    refine ⟨queue ▸ h.calls, ?_⟩
    intro c' running _
    cases world.symm.trans running
    exact closed (.inr some_)
  | run _ queue world =>
    apply h.execute world
    · intro g member
      rw [queue]
      exact List.mem_cons_of_mem _ member
    · apply h.calls
      rw [queue]
      exact List.mem_cons_self

theorem start_counted (serving : Serving) (wakeupFd eventfd : Int) (main : Nat) (c : Lifecycle)
    (none : c.erasing = 0) : Counted (start serving wakeupFd eventfd main c) := by
  cases serving with
  | single =>
    refine ⟨nofun, ?_⟩
    intro c' running gone
    obtain ⟨x, set, done⟩ := bind_eq_ok.mp running
    obtain ⟨e, _, rfl⟩ := lift_ok done
    obtain ⟨e', _, rfl⟩ := lift_ok set
    rcases gone with gone | gone
    · cases gone
    · exact absurd none (Nat.ne_of_gt gone)
  | alone =>
    refine ⟨nofun, ?_⟩
    intro c' running gone
    obtain ⟨x, set, done⟩ := bind_eq_ok.mp running
    obtain ⟨e, _, rfl⟩ := lift_ok set
    cases done
    rcases gone with gone | gone
    · cases gone
    · exact absurd none (Nat.ne_of_gt gone)
  | worker =>
    refine ⟨?_, ?_⟩
    · intro f member
      rw [List.mem_singleton.mp member]
      nofun
    · intro c' running gone
      cases running
      rcases gone with gone | gone
      · cases gone
      · exact absurd none (Nat.ne_of_gt gone)

end

/-- In every run in which no end of file is handled, a connection that nothing holds any more has
been passed to `::close`. -/
theorem dropped_after_close (serving : Serving) (wakeupFd eventfd : Int) (main : Nat)
    (regs : Registrations) (self : Nat) (fd id : Int) (d : State)
    (run : Reaches (Steps serving) NoEof (start serving wakeupFd eventfd main (.new regs self fd id)) d)
    (c : Lifecycle) (here : d.world = .ok c) (dropped : Dropped d c) : 1 ≤ c.closes := by
  have init := start_counted serving wakeupFd eventfd main (.new regs self fd id) rfl
  have kept := run.invariant init fun _ _ _ h clean taken => h.step clean taken
  exact kept.closed c here (.inl dropped.held)

/-- A handler of a `Server` closes its connection. -/
theorem dropped_after_close_handler : ∃ d c, Reaches (Steps .single) NoEof
    (start .single 0 7 0 (.new noRegs 0 5 1)) d ∧ d.world = .ok c ∧ Dropped d c ∧ 1 ≤ c.closes := by
  have selected : Reaches (Steps .single) NoEof (start .single 0 7 0 (.new noRegs 0 5 1)) _ :=
    Reaches.start.step (a := Act.loop) trivial rfl
  have closed : Reaches (Steps .single) NoEof (start .single 0 7 0 (.new noRegs 0 5 1)) _ :=
    selected.step (a := Act.handle .forceClose) trivial rfl
  exact ⟨_, _, closed, rfl, ⟨rfl, rfl, rfl, rfl⟩,
    dropped_after_close .single 0 7 0 noRegs 0 5 1 _ closed _ rfl ⟨rfl, rfl, rfl, rfl⟩⟩

/-- The peer closes, and nothing closes the descriptor. -/
theorem dropped_open : ∃ d c, Reaches (Steps .worker) Free
    (start .worker 0 7 0 (.new noRegs 0 5 1)) d ∧ d.world = .ok c ∧ Dropped d c ∧ c.closes = 0 := by
  have run := @Reaches.of_labels _ _ (step .worker) [.loop, .loop, .loop, .loop, .loop, .loop, .loop,
    .loop, .handle .handleEof, .eraseConnect] (start .worker 0 7 0 (.new noRegs 0 5 1)) _ rfl
  exact ⟨_, _, run, rfl, ⟨rfl, rfl, rfl, rfl⟩, rfl⟩

end Yamq.Closing
