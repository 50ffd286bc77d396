import Yamq.Tcp.Lifecycle

/-! What the calls and the steps of a connection's life do to its counters, its registration and the
functors that wait. -/
namespace Yamq.Closing

open Transition Lifecycle

/-- What no call changes but those that close. -/
structure Keeps (c l : Lifecycle) : Prop where
  held : l.held = c.held
  erasing : l.erasing = c.erasing
  closing : l.closing = c.closing
  callbacks : l.callbacks = c.callbacks
  removals : l.removals = c.removals
  closes : l.closes = c.closes

/-- The calls that close the connection. -/
def Shuts (c : Lifecycle) : LifeCall → Prop
  | .close => True
  | .handleEof => True
  | .forceClose => c.status = .CONNECTED
  | _ => False

section
variable {serving : Serving} {c c' : Lifecycle} {f : LifeCall}

theorem lift_keeps (c : Lifecycle) (run : Except Fault Endpoint) : Keeps c (last (c.lift run)) := by
  cases run <;> exact ⟨rfl, rfl, rfl, rfl, rfl, rfl⟩

theorem run_keeps (quiet : ¬ Shuts c f) : Keeps c (last (f.run serving c)) := by
  cases f with
  | close => exact absurd trivial quiet
  | handleEof => exact absurd trivial quiet
  | forceClose =>
    have free : c.status ≠ .CONNECTED := quiet
    rw [LifeCall.run, forceClose, if_pos free]
    exact ⟨rfl, rfl, rfl, rfl, rfl, rfl⟩
  | establish | send _ _ | handleWrite _ | register _ | remove _ => exact lift_keeps ..

theorem lift_ok {run : Except Fault Endpoint} (done : c.lift run = .ok c') :
    ∃ e, run = .ok e ∧ c' = { c with endpoint := e } := by
  cases run with
  | error f => cases done
  | ok e =>
    cases done
    exact ⟨e, rfl, rfl⟩

theorem remove_once (c : Lifecycle) : (last c.remove).callbacks = c.callbacks ∧
    (last c.remove).removals = c.removals + 1 ∧ (last c.remove).closes = c.closes ∧
    (last c.remove).closing = c.closing := by
  have kept := lift_keeps { c with removals := c.removals + 1 }
    (do return { c.endpoint with regs := ← c.endpoint.regs.removeChannel c.endpoint.conn.toChannel })
  exact ⟨kept.callbacks, kept.removals, kept.closes, kept.closing⟩

theorem remove_unregistered (done : c.remove = .ok c') : ¬ c'.Registered := by
  obtain ⟨e, run, rfl⟩ := lift_ok done
  obtain ⟨regs, removed, run⟩ := bind_eq_ok.mp run
  cases run
  have gone := (Registrations.removeChannel_ok removed).1 c.endpoint.conn.fd
  rw [if_pos rfl] at gone
  simp [Registered, gone]

/-- What the close callback may do to the counters, wherever it stops. -/
structure Once (c l : Lifecycle) : Prop where
  closing : l.closing = c.closing
  callbacks : l.callbacks = c.callbacks + 1
  removals : l.removals ≤ c.removals + 1
  closes : l.closes = c.closes

theorem last_bind {P : Lifecycle → Prop} {o : Except Stopped Lifecycle}
    {g : Lifecycle → Except Stopped Lifecycle} (first : P (last o))
    (next : ∀ x, o = .ok x → P x → P (last (g x))) : P (last (o >>= g)) := by
  cases o with
  | error s => exact first
  | ok x => exact next x rfl first

theorem closeConnect_once (serving : Serving) (c : Lifecycle) :
    Once c (last (c.closeConnect serving)) := by
  have removed (b : Lifecycle) (closing : b.closing = c.closing)
      (callbacks : b.callbacks = c.callbacks + 1) (removals : b.removals = c.removals)
      (closes : b.closes = c.closes) : Once c (last b.remove) := by
    obtain ⟨h1, h2, h3, h4⟩ := remove_once b
    exact ⟨h4.trans closing, h1.trans callbacks, by omega, h3.trans closes⟩
  cases serving with
  | single =>
    have quiet := lift_keeps { c with callbacks := c.callbacks + 1 }
      (do return c.endpoint.setChannel (← c.endpoint.conn.setEvents c.endpoint.regs EV_NONE))
    apply last_bind
    · exact ⟨quiet.closing, quiet.callbacks, Nat.le_succ_of_le (Nat.le_of_eq quiet.removals),
        quiet.closes⟩
    · intro b set _
      rw [setEvents] at set
      rw [set] at quiet
      apply last_bind (removed b quiet.closing quiet.callbacks quiet.removals quiet.closes)
      intro x _ once
      exact ⟨once.closing, once.callbacks, once.removals, once.closes⟩
  | alone =>
    apply last_bind (removed { c with callbacks := c.callbacks + 1 } rfl rfl rfl rfl)
    intro x _ once
    exact ⟨once.closing, once.callbacks, once.removals, once.closes⟩
  | worker =>
    apply last_bind (removed { c with callbacks := c.callbacks + 1 } rfl rfl rfl rfl)
    intro x _ once
    exact ⟨once.closing, once.callbacks, once.removals, once.closes⟩

theorem closeConnect_unregistered (done : c.closeConnect serving = .ok c') : ¬ c'.Registered := by
  cases serving with
  | single =>
    obtain ⟨b, _, done⟩ := bind_eq_ok.mp done
    obtain ⟨x, removed, done⟩ := bind_eq_ok.mp done
    cases done
    have gone := remove_unregistered removed
    exact gone
  | alone =>
    obtain ⟨x, removed, done⟩ := bind_eq_ok.mp done
    cases done
    have gone := remove_unregistered removed
    exact gone
  | worker =>
    obtain ⟨x, removed, done⟩ := bind_eq_ok.mp done
    cases done
    have gone := remove_unregistered removed
    exact gone

/-- What a call that closes does. -/
structure Shut (c l : Lifecycle) : Prop where
  closing : l.closing = c.closing
  callbacks : l.callbacks = c.callbacks + 1
  removals : l.removals ≤ c.removals + 1
  closes : l.closes ≤ c.closes + 1

theorem run_shut (shuts : Shuts c f) : Shut c (last (f.run serving c)) := by
  have once := closeConnect_once serving (c.setStatus .CLOSING)
  have closed : Shut c (last (c.close serving)) := by
    apply last_bind
    · exact ⟨once.closing, once.callbacks, once.removals, Nat.le_succ_of_le (Nat.le_of_eq once.closes)⟩
    · intro x done _
      rw [done] at once
      exact ⟨once.closing, once.callbacks, once.removals, Nat.succ_le_succ (Nat.le_of_eq once.closes)⟩
  cases f with
  | close => exact closed
  | forceClose =>
    have connected : c.status = .CONNECTED := shuts
    rw [LifeCall.run, forceClose, if_neg (not_not_intro connected)]
    exact closed
  | handleEof =>
    apply last_bind
    · exact ⟨once.closing, once.callbacks, once.removals, Nat.le_succ_of_le (Nat.le_of_eq once.closes)⟩
    · intro x _ same
      exact ⟨same.closing, same.callbacks, same.removals, same.closes⟩
  | establish | send _ _ | handleWrite _ | register _ | remove _ => exact absurd shuts not_false

theorem close_closed (done : c.close serving = .ok c') : c'.status = .CLOSED ∧ ¬ c'.Registered := by
  obtain ⟨x, closed, done⟩ := bind_eq_ok.mp done
  cases done
  have gone := closeConnect_unregistered closed
  exact ⟨rfl, gone⟩

theorem run_closed (shuts : Shuts c f) (done : f.run serving c = .ok c') :
    c'.status = .CLOSED ∧ ¬ c'.Registered := by
  cases f with
  | close => exact close_closed done
  | forceClose =>
    have connected : c.status = .CONNECTED := shuts
    rw [LifeCall.run, forceClose, if_neg (not_not_intro connected)] at done
    exact close_closed done
  | handleEof =>
    obtain ⟨x, closed, done⟩ := bind_eq_ok.mp done
    cases done
    have gone := closeConnect_unregistered closed
    exact ⟨rfl, gone⟩
  | establish | send _ _ | handleWrite _ | register _ | remove _ => exact absurd shuts not_false

theorem run_outside (free : c.status ≠ .CONNECTED) (gone : ¬ c.Registered) (quiet : ¬ Shuts c f)
    (enabled : f.queued = true ∨ f.Handled c) (done : f.run serving c = .ok c') :
    c'.status = c.status ∧ ¬ c'.Registered := by
  cases f with
  | establish => rcases enabled with h | h <;> cases h
  | close => exact absurd trivial quiet
  | handleEof => exact absurd trivial quiet
  | forceClose =>
    rw [LifeCall.run, forceClose, if_pos free] at done
    cases done
    exact ⟨rfl, gone⟩
  | send data result =>
    obtain ⟨e, sent, rfl⟩ := lift_ok done
    have status : c.endpoint.conn.status ≠ .CONNECTED := free
    unfold Endpoint.send at sent
    rw [if_pos status] at sent
    cases sent
    exact ⟨rfl, gone⟩
  | handleWrite result =>
    rcases enabled with h | attached
    · cases h
    · obtain ⟨e, wrote, rfl⟩ := lift_ok done
      have kept : c.endpoint.Within e := .handleWrite attached wrote
      refine ⟨Endpoint.handleWrite_status wrote, ?_⟩
      rw [Registered, kept.channels, kept.fd, kept.self]
      exact gone
  | register other =>
    rcases enabled with h | different
    · cases h
    · obtain ⟨e, run, rfl⟩ := lift_ok done
      obtain ⟨regs, registered, run⟩ := bind_eq_ok.mp run
      cases run
      refine ⟨rfl, ?_⟩
      intro here
      rcases Registrations.registerChannel_ok registered c.endpoint.conn.fd with same | ⟨_, same⟩
      · exact gone (same.symm.trans here)
      · exact different (Option.some.inj (same.symm.trans here))
  | remove other =>
    rcases enabled with h | different
    · cases h
    · obtain ⟨e, run, rfl⟩ := lift_ok done
      obtain ⟨regs, removed, run⟩ := bind_eq_ok.mp run
      cases run
      refine ⟨rfl, ?_⟩
      intro here
      have left := (Registrations.removeChannel_ok removed).1 c.endpoint.conn.fd
      have here : regs.channels c.endpoint.conn.fd = some c.endpoint.conn.self := here
      split at left
      · rw [left] at here
        cases here
      · exact gone (left.symm.trans here)

end

/-! Steps. -/

/-- What a step does to the connection and to the functors that wait. -/
inductive Change (serving : Serving) (d d' : State) (c : Lifecycle) : Act → Prop where
  | still {a : Act} : d'.world = d.world → d'.queue = d.queue → Change serving d d' c a
  | test {i : Nat} : c.status = .CONNECTED → d'.world = .ok { c with closing := c.closing ++ [i] } →
      d'.queue = d.queue → Change serving d d' c (.forceClose i)
  | queueClose {i : Nat} : i ∈ c.closing →
      d'.world = .ok { c with closing := c.closing.erase i } → d'.queue = d.queue ++ [.close] →
      Change serving d d' c (.queueClose i)
  | queue {i : Nat} {call : LifeCall} : call.queued = true → d'.world = d.world →
      d'.queue = d.queue ++ [call] → Change serving d d' c (.queue i call)
  | handle {call : LifeCall} : call.Handled c → d'.world = exec serving call d.world →
      d'.queue = d.queue → Change serving d d' c (.handle call)
  | erase : 0 < c.erasing → d'.world = .ok { c with held := false, erasing := c.erasing - 1 } →
      d'.queue = d.queue → Change serving d d' c .eraseConnect
  | run {f : LifeCall} : (d.batch.map Queued.functor).head? = some f → d.queue = f :: d'.queue →
      d'.world = exec serving f d.world → Change serving d d' c .loop

theorem step_change {serving : Serving} {d d' : State} {a : Act} (taken : Steps serving d a d') :
    ∃ c, d.world = .ok c ∧ Change serving d d' c a := by
  unfold Steps Closing.step at taken
  cases here : d.world with
  | error s => simp [here] at taken
  | ok c =>
    simp only [here] at taken
    refine ⟨c, rfl, ?_⟩
    cases a with
    | forceClose i =>
      simp only at taken
      split at taken <;> cases taken
      rename_i passed
      exact .test passed.2.2 rfl rfl
    | queueClose i =>
      simp only at taken
      split at taken
      · rename_i tested
        obtain ⟨world, queue⟩ := EventDispatcher.syncRunInEvd_spec taken
        exact .queueClose tested world queue
      · cases taken
    | queue i call =>
      simp only at taken
      split at taken
      · rename_i free
        obtain ⟨world, queue⟩ := EventDispatcher.runInEvd_spec taken
        exact .queue free.2 world queue
      · cases taken
    | handle call =>
      simp only at taken
      split at taken
      · rename_i handled
        obtain ⟨world, queue⟩ := EventDispatcher.handler_spec taken
        exact .handle handled world queue
      · cases taken
    | eraseConnect =>
      simp only at taken
      split at taken <;> cases taken
      rename_i some_
      exact .erase some_ rfl rfl
    | stop i =>
      simp only at taken
      split at taken
      · obtain ⟨world, queue⟩ := EventDispatcher.stop_spec taken
        exact .still world queue
      · cases taken
    | caller i =>
      obtain ⟨world, queue⟩ := EventDispatcher.caller_spec taken
      exact .still world queue
    | wakeupRead =>
      obtain ⟨world, queue⟩ := EventDispatcher.wakeupRead_spec taken
      exact .still world queue
    | loop =>
      rcases EventDispatcher.loop_spec taken with ⟨world, queue⟩ | ⟨f, head, queue, world⟩
      · exact .still world queue
      · exact .run head queue world

end Yamq.Closing
