import Yamq.Rpc.QueueOrder

/-! What `Stop` leaves behind. `Start` drains the queue and then tests `_stop`, so a functor is left
over when both its push and the store of `_stop` fall between the two. -/
namespace Yamq.EventDispatcher

open Transition

variable {F W : Type} {exec : F → W → W} {d d' e : EventDispatcher F W}

/-- After the swap of `runPendingFunctor` and before the test of `_stop`. -/
def draining (d : EventDispatcher F W) : Bool :=
  match d.loop with
  | .running _ => true
  | .cleared => true
  | .testing => true
  | _ => false

/-- The functor of a call has run, or it will before `Start` returns. -/
def Served (t : Nat) (d : EventDispatcher F W) : Prop :=
  t ∈ d.ran ∨ t ∈ d.batch.map Queued.ticket ∨
    t ∈ d.pending.map Queued.ticket ∧ d.draining = false ∧ d.loop ≠ .exited

/-- The functor of a call is queued, and no swap comes any more. -/
structure Stranded (t : Nat) (d : EventDispatcher F W) : Prop where
  stop : d.stop = true
  late : d.draining = true ∨ d.loop = .exited
  queued : t ∈ d.pending.map Queued.ticket

variable {t : Nat}

/-- The loop thread apart, a step leaves the loop where it is and takes nothing out of the queue. -/
theorem other_step {a : Act F} (other : a ≠ .loop) (taken : Steps exec d a d') :
    d'.loop = d.loop ∧ d'.ran = d.ran ∧ (d.stop = true → d'.stop = true) ∧
      ∃ new, d'.pending = d.pending ++ new := by
  unfold Steps step at taken
  split at taken
  · split at taken <;> cases taken
    exact ⟨rfl, rfl, id, _, rfl⟩
  · split at taken <;> cases taken
    exact ⟨rfl, rfl, id, _, rfl⟩
  · split at taken <;> cases taken
    exact ⟨rfl, rfl, fun _ => rfl, [], (List.append_nil _).symm⟩
  · have woken : d.wakeup.loop = d.loop ∧ d.wakeup.ran = d.ran ∧ (d.stop = true → d.wakeup.stop = true) ∧
        ∃ new, d.wakeup.pending = d.pending ++ new := by
      unfold wakeup
      split <;> exact ⟨rfl, rfl, id, [], (List.append_nil _).symm⟩
    have kept : d.loop = d.loop ∧ d.ran = d.ran ∧ (d.stop = true → d.stop = true) ∧
        ∃ new, d.pending = d.pending ++ new := ⟨rfl, rfl, id, [], (List.append_nil _).symm⟩
    unfold callerStep at taken
    split at taken
    · cases taken
    · cases taken; exact kept
    · split at taken <;> cases taken <;> exact kept
    · cases taken; exact woken
    · split at taken <;> cases taken <;> exact kept
    · cases taken; exact woken
  · split at taken <;> cases taken
    exact ⟨rfl, rfl, id, [], (List.append_nil _).symm⟩
  · split at taken
    · split at taken <;> cases taken
      exact ⟨rfl, rfl, id, [], (List.append_nil _).symm⟩
    · cases taken
  · exact absurd rfl other

theorem Served.loopStep (h : d.Served t) (taken : d.loopStep exec = some d') : d'.Served t := by
  unfold EventDispatcher.loopStep at taken
  split at taken
  · rename_i pc
    cases taken
    simpa [Served, batch, draining, pc] using h
  · rename_i pc
    cases taken
    simpa [Served, batch, draining, pc] using h
  · -- the swap
    rename_i pc
    cases taken
    simpa [Served, batch, draining, pc] using h
  · rename_i pc
    cases taken
    simpa [Served, batch, draining, pc] using h
  · rename_i pc
    cases taken
    simpa [Served, batch, draining, pc, or_assoc] using h
  · rename_i pc
    cases taken
    simpa [Served, batch, draining, pc] using h
  · rename_i pc
    cases taken
    have ran : t ∈ d.ran := by simpa [Served, batch, draining, pc] using h
    exact .inl ran
  · cases taken

theorem Served.step (h : d.Served t) {a : Act F} (taken : Steps exec d a d') : d'.Served t := by
  by_cases loop : a = .loop
  · subst loop
    exact h.loopStep taken
  · obtain ⟨pc, ran, _, new, queue⟩ := other_step loop taken
    have held : d'.batch = d.batch := by rw [batch, pc, batch]
    have same : d'.draining = d.draining := by rw [draining, pc, draining]
    rw [Served, ran, held, queue, same, pc]
    refine h.imp id (Or.imp id fun waits => ⟨?_, waits.2⟩)
    rw [List.map_append]
    exact List.mem_append_left _ waits.1

theorem Stranded.step (h : d.Stranded t) {a : Act F} (taken : Steps exec d a d') :
    d'.Stranded t := by
  by_cases loop : a = .loop
  · subst loop
    have taken : d.loopStep exec = some d' := taken
    have late := h.late
    unfold EventDispatcher.loopStep at taken
    split at taken
    · rename_i pc
      simp [draining, pc] at late
    · rename_i pc
      simp [draining, pc] at late
    · rename_i pc
      simp [draining, pc] at late
    · cases taken; exact ⟨h.stop, .inl rfl, h.queued⟩
    · cases taken; exact ⟨h.stop, .inl rfl, h.queued⟩
    · cases taken; exact ⟨h.stop, .inl rfl, h.queued⟩
    · cases taken
      exact ⟨h.stop, .inr (if_pos h.stop), h.queued⟩
    · cases taken
  · obtain ⟨pc, _, stop, new, queue⟩ := other_step loop taken
    have same : d'.draining = d.draining := by rw [draining, pc, draining]
    refine ⟨stop h.stop, by rw [same, pc]; exact h.late, ?_⟩
    rw [queue, List.map_append]
    exact List.mem_append_left _ h.queued

/-- The loop ends only when it finds `_stop` set. -/
def Ended (d : EventDispatcher F W) : Prop := d.loop = .exited → d.stop = true

theorem Ended.step (h : d.Ended) {a : Act F} (taken : Steps exec d a d') : d'.Ended := by
  intro exited
  by_cases loop : a = .loop
  · subst loop
    have taken : d.loopStep exec = some d' := taken
    unfold EventDispatcher.loopStep at taken
    split at taken
    · cases taken; cases exited
    · cases taken; cases exited
    · cases taken; cases exited
    · cases taken; cases exited
    · cases taken; cases exited
    · cases taken; cases exited
    · cases taken
      cases stop : d.stop with
      | true => rfl
      | false => simp [stop] at exited
    · cases taken
  · obtain ⟨pc, _, stop, _⟩ := other_step loop taken
    exact stop (h (pc.symm.trans exited))

theorem running_of_reaches {wakeupFd eventfd : Int} {world : W}
    (run : Reaches (Steps exec) Free (new wakeupFd eventfd world) d) (first : d.stop = false) :
    d.loop ≠ .exited := by
  have init : (EventDispatcher.new (F := F) wakeupFd eventfd world).Ended := by
    intro exited
    cases exited
  have ended : d.Ended := run.invariant init fun _ _ _ h _ taken => h.step taken
  intro exited
  cases first.symm.trans (ended exited)

theorem ticket_pushed {i : Nat} {cb : F}
    (called : Steps exec d (.runInEvd i cb) d') (later : Reaches (Steps exec) Free d' e) :
    d.nextTicket < e.nextTicket := by
  have less : d.nextTicket < d'.nextTicket := by
    simp only [Steps, step] at called
    split at called <;> cases called
    exact Nat.lt_succ_self _
  exact Nat.lt_of_lt_of_le less (nextTicket_run later)

/-- A functor that the store of `_stop` finds in the queue is served, unless the loop is draining. -/
theorem served_of_stop {wakeupFd eventfd : Int} {world : W} {i : Nat}
    (run : Reaches (Steps exec) Free (new wakeupFd eventfd world) d) (first : d.stop = false)
    (pushed : t < d.nextTicket) (timely : ¬ (d.draining = true ∧ t ∈ d.pending.map Queued.ticket)) :
    ({ d with stop := true }.setCaller i .stopping).Served t := by
  have order : d.ran ++ (d.batch ++ d.pending).map Queued.ticket = List.range d.nextTicket :=
    inOrder_of_reaches run
  have open_ : d.loop ≠ .exited := running_of_reaches run first
  have placed : t ∈ d.ran ++ (d.batch ++ d.pending).map Queued.ticket := by
    rw [order]
    exact List.mem_range.mpr pushed
  rw [List.map_append] at placed
  rcases List.mem_append.mp placed with ran | waits
  · exact .inl ran
  · rcases List.mem_append.mp waits with held | queued
    · exact .inr (.inl held)
    · refine .inr (.inr ⟨queued, ?_, open_⟩)
      exact Bool.eq_false_iff.mpr fun late => timely ⟨late, queued⟩

/-- In every run in which a thread calls `RunInEvd(f)` and then `Stop()`, and nobody has stopped the
loop before: by the time `Start` returns, `f` has been executed if and only if the store of `_stop` did
not find `f` still queued with the loop between its swap and its test; and what has run has made the world
what it is. -/
theorem stop_keeps_accepted (exec : F → W → W) (wakeupFd eventfd : Int) (world : W) (i : Nat) (cb : F)
    (d d' e e' s : EventDispatcher F W) (run : Reaches (Steps exec) Free (new wakeupFd eventfd world) d)
    (called : Steps exec d (.runInEvd i cb) d') (middle : Reaches (Steps exec) Free d' e)
    (first : e.stop = false) (stopped : Steps exec e (.stop i) e')
    (rest : Reaches (Steps exec) Free e' s) (returned : s.loop = .exited) :
    (d.nextTicket ∈ s.ran ↔
      ¬ (e.draining = true ∧ d.nextTicket ∈ e.pending.map Queued.ticket)) ∧
    Executed exec (new wakeupFd eventfd world) s := by
  have whole : Reaches (Steps exec) Free (new wakeupFd eventfd world) e :=
    (run.step trivial called).trans middle
  have ended := (whole.step trivial stopped).trans rest
  have order : s.InOrder := inOrder_of_reaches ended
  refine ⟨?_, executed_of_reaches ended⟩
  simp only [Steps, step] at stopped
  split at stopped
  · cases stopped
    constructor
    · rintro ran ⟨late, queued⟩
      have stranded : s.Stranded d.nextTicket := by
        have now : ({ e with stop := true }.setCaller i .stopping).Stranded d.nextTicket :=
          ⟨rfl, .inl late, queued⟩
        exact rest.invariant now fun _ _ _ h _ taken => h.step taken
      exact order.pending_not_ran stranded.queued ran
    · intro timely
      have now : ({ e with stop := true }.setCaller i .stopping).Served d.nextTicket :=
        served_of_stop whole first (ticket_pushed called middle) timely
      have served : s.Served d.nextTicket := rest.invariant now fun _ _ _ h _ taken => h.step taken
      rcases served with ran | held | ⟨_, _, running⟩
      · exact ran
      · simp [batch, returned] at held
      · exact absurd returned running
  · cases stopped

/-- Thread 1 stops the loop before it leaves `Select`, and its functor is executed. -/
theorem stop_keeps_accepted_selecting : ∃ s : EventDispatcher Unit Nat,
    Reaches (Steps fun _ w => w + 1) Free (new 0 7 0) s ∧ s.loop = .exited ∧ 0 ∈ s.ran ∧ s.world = 1 ∧
      Executed (fun _ w => w + 1) (new 0 7 0) s := by
  let exec : Unit → Nat → Nat := fun _ w => w + 1
  let after (labels : List (Act Unit)) (d : EventDispatcher Unit Nat) :=
    (labels.foldlM (step exec) d).getD d
  let d' := after [.runInEvd 1 ()] (new 0 7 0)
  let e := after [.caller 1, .caller 1] d'
  let e' := after [.stop 1] e
  let s := after [.loop, .loop, .loop, .loop, .loop, .loop, .loop] e'
  have called : Steps exec (new 0 7 0) (.runInEvd 1 ()) d' := rfl
  have middle : Reaches (Steps exec) Free d' e := .of_labels (step exec) [.caller 1, .caller 1] rfl
  have stopped : Steps exec e (.stop 1) e' := rfl
  have rest : Reaches (Steps exec) Free e' s :=
    .of_labels (step exec) [.loop, .loop, .loop, .loop, .loop, .loop, .loop] rfl
  have run := (((Reaches.start.step trivial called).trans middle).step trivial stopped).trans rest
  obtain ⟨kept, executed⟩ :=
    stop_keeps_accepted exec 0 7 0 1 () _ d' e e' s .start called middle rfl stopped rest rfl
  exact ⟨s, run, rfl, kept.mpr (by decide), rfl, executed⟩

/-- Both calls fall between the swap and the test. -/
theorem stop_drops_accepted : ∃ d d' e e' s : EventDispatcher Unit Nat,
    Reaches (Steps fun _ w => w + 1) Free (new 0 7 0) d ∧
    Steps (fun _ w => w + 1) d (.runInEvd 1 ()) d' ∧ Reaches (Steps fun _ w => w + 1) Free d' e ∧
    e.stop = false ∧ Steps (fun _ w => w + 1) e (.stop 1) e' ∧
    Reaches (Steps fun _ w => w + 1) Free e' s ∧ s.loop = .exited ∧ d.nextTicket ∉ s.ran := by
  let exec : Unit → Nat → Nat := fun _ w => w + 1
  let after (labels : List (Act Unit)) (d : EventDispatcher Unit Nat) :=
    (labels.foldlM (step exec) d).getD d
  let d := after [.loop, .loop, .loop] (new 0 7 0)
  let d' := after [.runInEvd 1 ()] d
  let e := after [.caller 1, .caller 1, .caller 1] d'
  let e' := after [.stop 1] e
  refine ⟨d, d', e, e', after [.caller 1, .loop, .loop, .loop] e',
    .of_labels (step exec) [.loop, .loop, .loop] rfl, rfl,
    .of_labels (step exec) [.caller 1, .caller 1, .caller 1] rfl, rfl, rfl,
    .of_labels (step exec) [.caller 1, .loop, .loop, .loop] rfl, rfl, by decide⟩

end Yamq.EventDispatcher
