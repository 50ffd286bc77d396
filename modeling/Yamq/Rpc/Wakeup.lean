import Yamq.Rpc.EventDispatcher

/-! Whether the loop is told about a functor that is queued while it stands in `Select`. `RunInEvd`
writes only when it reads `_calling_pending_functor` as true, and what it writes to is
`_wakeup_fds[0]`. -/
namespace Yamq

/-- A call that has pushed its functor and has not read `_calling_pending_functor`. -/
def CallerPc.unread : CallerPc → Bool
  | .pushed _ _ => true
  | .cleared _ _ => true
  | _ => false

/-- A call that has read true and goes on to `Wakeup`. -/
def CallerPc.woken : CallerPc → Bool
  | .waking _ _ => true
  | _ => false

/-- The dispatcher, with a record of whether the eventfd has been written since `_pending_functors`
became non-empty. -/
structure Watched (F W : Type) where
  evd : EventDispatcher F W
  written : Bool := false

namespace Watched

variable {F W : Type} (exec : F → W → W)

/-- The record after a step to `d`. -/
def record (w : Watched F W) (d : EventDispatcher F W) : Bool :=
  if w.evd.pending.isEmpty then false else w.written || decide (w.evd.signals < d.signals)

def step (w : Watched F W) (a : EventDispatcher.Act F) : Option (Watched F W) :=
  (w.evd.step exec a).map fun d => ⟨d, w.record d⟩

def Steps (w : Watched F W) (a : EventDispatcher.Act F) (w' : Watched F W) : Prop :=
  w.step exec a = some w'

def new (wakeupFd eventfd : Int) (world : W) : Watched F W := ⟨.new wakeupFd eventfd world, false⟩

/-- The loop is blocked, every call has returned or waits for its functor to run, and nobody has told
the loop about the functors that wait. -/
def Lost (w : Watched F W) : Prop :=
  w.evd.loop = .selecting ∧
    (∀ i, (w.evd.callers i).unread = false ∧ (w.evd.callers i).woken = false) ∧
    w.evd.pending ≠ [] ∧ w.written = false

/-- The loop is past the swap that would take what is pushed now, on its way to `Select` or in it. -/
def returning (w : Watched F W) : Bool :=
  match w.evd.loop with
  | .selecting => true
  | .running _ => !w.evd.stop
  | .cleared => !w.evd.stop
  | .testing => !w.evd.stop
  | _ => false

/-- A call reads `_calling_pending_functor` before the next swap takes the functors that wait, or after
a write that announced them. In any other case it reads true, or some call is in `Wakeup`, and
`_wakeup_fds[0]` is the eventfd. -/
def Announced (w : Watched F W) (a : EventDispatcher.Act F) : Prop :=
  ∀ i sync ticket, a = .caller i → w.evd.callers i = .cleared sync ticket →
    w.returning = true → w.evd.pending ≠ [] → w.written = false →
      w.evd.wakeupFd = w.evd.eventfd ∧
        (w.evd.callingPendingFunctor = true ∨ ∃ j, (w.evd.callers j).woken = true)

/-- The call of thread `i` may still write to the eventfd. -/
def Writes (w : Watched F W) (i : Nat) : Prop :=
  (w.evd.callers i).unread = true ∨
    (w.evd.callers i).woken = true ∧ w.evd.wakeupFd = w.evd.eventfd

/-- As long as the functors that wait are not announced, some call may still do it. -/
def Covered (w : Watched F W) : Prop :=
  w.returning = true → w.evd.pending ≠ [] → w.written = false → ∃ i, w.Writes i

variable {exec} {w w' : Watched F W} {d' : EventDispatcher F W}

theorem Covered.not_lost (h : w.Covered) : ¬ w.Lost := by
  rintro ⟨loop, returned, waiting, silent⟩
  obtain ⟨i, unread | ⟨woken, _⟩⟩ := h (by simp [returning, loop]) waiting silent
  · exact Bool.false_ne_true ((returned i).1.symm.trans unread)
  · exact Bool.false_ne_true ((returned i).2.symm.trans woken)

theorem record_of_pending (waiting : w.evd.pending ≠ []) (silent : w.record d' = false) :
    w.written = false ∧ d'.signals ≤ w.evd.signals := by
  have filled : w.evd.pending.isEmpty = false := by simpa using waiting
  rw [record, filled] at silent
  simpa using silent

theorem Covered.frame (h : w.Covered) (loop : w'.returning = true → w.returning = true)
    (pending : w'.evd.pending = w.evd.pending) (written : w'.written = w.record w'.evd)
    (writes : ∀ i, w.Writes i → w'.Writes i) : w'.Covered := by
  intro returning waiting silent
  rw [pending] at waiting
  rw [written] at silent
  obtain ⟨i, may⟩ := h (loop returning) waiting (record_of_pending waiting silent).1
  exact ⟨i, writes i may⟩

theorem Writes.move {i j : Nat} {pc : CallerPc} {d : EventDispatcher F W} {b b' : Bool}
    (h : (Watched.mk d b).Writes j)
    (unread : (d.callers i).unread = true → pc.unread = true)
    (woken : (d.callers i).woken = true → d.wakeupFd = d.eventfd → pc.woken = true) :
    (Watched.mk (d.setCaller i pc) b').Writes j := by
  by_cases same : j = i
  · subst same
    rcases h with read | ⟨read, fd⟩
    · left
      simpa [EventDispatcher.setCaller] using unread read
    · right
      exact ⟨by simpa [EventDispatcher.setCaller] using woken read fd, fd⟩
  · simpa only [Writes, EventDispatcher.setCaller, Function.update_of_ne same] using h

theorem covered_push (w : Watched F W) (i : Nat) (sync : Bool) (cb : F) (b : Bool) :
    (Watched.mk (w.evd.push i sync cb) b).Covered := by
  intro _ _ _
  refine ⟨i, .inl ?_⟩
  simp [EventDispatcher.push, EventDispatcher.setCaller, CallerPc.unread]

/-- `Wakeup`, from a call that then has nothing left to write. -/
theorem Covered.wakeup (h : w.Covered) {i : Nat} {pc : CallerPc}
    (last : (w.evd.callers i).unread = false) :
    (Watched.mk (w.evd.wakeup.setCaller i pc) (w.record (w.evd.wakeup.setCaller i pc))).Covered := by
  by_cases fd : w.evd.wakeupFd = w.evd.eventfd
  · intro _ waiting silent
    have wrote : w.evd.wakeup = { w.evd with signals := w.evd.signals + 1 } := if_pos fd
    rw [wrote] at waiting silent
    exact absurd (record_of_pending (w := w) waiting silent).2 (Nat.not_succ_le_self _)
  · have wrote : w.evd.wakeup = w.evd := if_neg fd
    rw [wrote]
    refine h.frame id rfl rfl fun j may => may.move ?_ ?_
    · exact fun unread => absurd (last.symm.trans unread) Bool.false_ne_true
    · exact fun _ same => absurd same fd

theorem Covered.callerStep (h : w.Covered) {i : Nat} (announced : w.Announced (.caller i))
    (taken : w.evd.callerStep i = some d') : (Watched.mk d' (w.record d')).Covered := by
  unfold EventDispatcher.callerStep at taken
  split at taken
  · cases taken
  · cases taken
    intro _ _ _
    refine ⟨i, .inl ?_⟩
    simp [EventDispatcher.setCaller, CallerPc.unread]
  · rename_i sync ticket pc
    split at taken
    · cases taken
      intro returning waiting silent
      obtain ⟨fd, _⟩ := announced i sync ticket rfl pc returning waiting
        (record_of_pending (w := w) waiting silent).1
      refine ⟨i, .inr ⟨?_, fd⟩⟩
      simp [EventDispatcher.setCaller, CallerPc.woken]
    · rename_i quiet
      cases taken
      intro returning waiting silent
      obtain ⟨fd, calling | ⟨j, woken⟩⟩ := announced i sync ticket rfl pc returning waiting
        (record_of_pending (w := w) waiting silent).1
      · exact absurd calling quiet
      · -- the call in `Wakeup` is another one
        have other : j ≠ i := by
          rintro rfl
          simp [pc, CallerPc.woken] at woken
        refine ⟨j, .inr ⟨?_, fd⟩⟩
        simpa only [EventDispatcher.afterWakeup, EventDispatcher.setCaller,
          Function.update_of_ne other] using woken
  · rename_i pc
    cases taken
    exact h.wakeup (by rw [pc]; rfl)
  · rename_i pc
    split at taken
    · cases taken
      refine h.frame id rfl rfl fun j may => ?_
      refine Writes.move (d := { w.evd with synced := _ }) (b := w.written) may ?_ ?_
      · simp [pc, CallerPc.unread]
      · simp [pc, CallerPc.woken]
    · cases taken
      exact h.frame id rfl rfl fun _ => id
  · rename_i pc
    cases taken
    exact h.wakeup (by rw [pc]; rfl)

theorem Covered.loopStep (h : w.Covered) (taken : w.evd.loopStep exec = some d') :
    (Watched.mk d' (w.record d')).Covered := by
  unfold EventDispatcher.loopStep at taken
  split at taken
  · cases taken; exact nofun
  · cases taken; exact nofun
  · cases taken; exact fun _ waiting => absurd rfl waiting
  · rename_i pc
    cases taken
    exact h.frame (by simp [returning, pc]) rfl rfl fun _ => id
  · rename_i pc
    cases taken
    exact h.frame (by simp [returning, pc]) rfl rfl fun _ => id
  · rename_i pc
    cases taken
    exact h.frame (by simp [returning, pc]) rfl rfl fun _ => id
  · rename_i pc
    cases taken
    refine h.frame ?_ rfl rfl fun _ => id
    cases stop : w.evd.stop <;> simp [returning, pc, stop]
  · cases taken

theorem Covered.step (h : w.Covered) {a : EventDispatcher.Act F} (announced : w.Announced a)
    (steps : Steps exec w a w') : w'.Covered := by
  obtain ⟨d', taken, rfl⟩ := Option.map_eq_some_iff.mp steps
  unfold EventDispatcher.step at taken
  split at taken
  · rename_i i cb
    split at taken <;> cases taken
    exact covered_push w i false cb _
  · rename_i i cb
    split at taken <;> cases taken
    exact covered_push w i true cb _
  · split at taken
    · rename_i i idle
      cases taken
      refine h.frame ?_ rfl rfl fun j may => ?_
      · intro returning
        cases loop : w.evd.loop <;>
          simp_all [Watched.returning, EventDispatcher.setCaller]
      · refine Writes.move (d := { w.evd with stop := true }) (b := w.written) may ?_ ?_
        · simp [idle, CallerPc.unread]
        · simp [idle, CallerPc.woken]
    · cases taken
  · exact h.callerStep announced taken
  · split at taken <;> cases taken
    rename_i pc
    exact h.frame (by simp [returning, pc]) rfl rfl fun _ => id
  · split at taken
    · rename_i pc
      split at taken <;> cases taken
      exact h.frame (by simp [returning, pc]) rfl rfl fun _ => id
    · cases taken
  · exact h.loopStep taken

/-- In every run in which each call reads the flag in time, no wakeup is lost. -/
theorem announced_not_lost (exec : F → W → W) (wakeupFd eventfd : Int) (world : W) (w : Watched F W)
    (run : Transition.Reaches (Steps exec) Announced (new wakeupFd eventfd world) w) : ¬ w.Lost := by
  have covered : w.Covered := run.invariant (fun _ waiting => absurd rfl waiting)
    fun _ _ _ h announced taken => h.step announced taken
  exact covered.not_lost

/-! The other way round: a call that is not announced in time loses its wakeup. -/

/-- Steps in which no call moves, nothing is swapped and nobody writes. -/
structure Drifts (exec : F → W → W) (w w' : Watched F W) : Prop where
  run : Transition.Reaches (Steps exec) Transition.Free w w'
  callers : w'.evd.callers = w.evd.callers
  pending : w'.evd.pending = w.evd.pending
  silent : w.written = false → w'.written = false

theorem Drifts.first {d : EventDispatcher F W} (taken : w.evd.loopStep exec = some d)
    (callers : d.callers = w.evd.callers) (pending : d.pending = w.evd.pending)
    (signals : d.signals = w.evd.signals) (rest : Drifts exec ⟨d, w.record d⟩ w') :
    Drifts exec w w' where
  run := by
    have steps : Steps exec w .loop ⟨d, w.record d⟩ := Option.map_eq_some_iff.mpr ⟨d, taken, rfl⟩
    exact (Transition.Reaches.step .start trivial steps).trans rest.run
  callers := rest.callers.trans callers
  pending := rest.pending.trans pending
  silent := by
    intro silent
    apply rest.silent
    simp [record, silent, signals]

theorem drifts_testing (pc : w.evd.loop = .testing) (stop : w.evd.stop = false) :
    ∃ w', Drifts exec w w' ∧ w'.evd.loop = .selecting := by
  have taken : w.evd.loopStep exec = some { w.evd with loop := .selecting } := by
    simp [EventDispatcher.loopStep, pc, stop]
  exact ⟨_, .first taken rfl rfl rfl ⟨.start, rfl, rfl, id⟩, rfl⟩

theorem drifts_cleared (pc : w.evd.loop = .cleared) (stop : w.evd.stop = false) :
    ∃ w', Drifts exec w w' ∧ w'.evd.loop = .selecting := by
  let d : EventDispatcher F W := { w.evd with loop := .testing, pendingFunctorDone := true }
  have taken : w.evd.loopStep exec = some d := by
    simp only [EventDispatcher.loopStep, pc, d]
  obtain ⟨w', rest, blocked⟩ : ∃ w', Drifts exec ⟨d, w.record d⟩ w' ∧ w'.evd.loop = .selecting :=
    drifts_testing rfl stop
  exact ⟨w', rest.first taken rfl rfl rfl, blocked⟩

theorem drifts_running (batch : List (Queued F)) (pc : w.evd.loop = .running batch)
    (stop : w.evd.stop = false) : ∃ w', Drifts exec w w' ∧ w'.evd.loop = .selecting := by
  induction batch generalizing w with
  | nil =>
    let d : EventDispatcher F W := { w.evd with loop := .cleared, callingPendingFunctor := false }
    have taken : w.evd.loopStep exec = some d := by
      simp only [EventDispatcher.loopStep, pc, d]
    obtain ⟨w', rest, blocked⟩ : ∃ w', Drifts exec ⟨d, w.record d⟩ w' ∧ w'.evd.loop = .selecting :=
      drifts_cleared rfl stop
    exact ⟨w', rest.first taken rfl rfl rfl, blocked⟩
  | cons q batch ih =>
    let d : EventDispatcher F W := { w.evd with
      loop := .running batch
      world := exec q.functor w.evd.world
      ran := w.evd.ran ++ [q.ticket] }
    have taken : w.evd.loopStep exec = some d := by
      simp only [EventDispatcher.loopStep, pc, d]
    obtain ⟨w', rest, blocked⟩ : ∃ w', Drifts exec ⟨d, w.record d⟩ w' ∧ w'.evd.loop = .selecting :=
      ih rfl stop
    exact ⟨w', rest.first taken rfl rfl rfl, blocked⟩

theorem drifts_to_select (returning : w.returning = true) :
    ∃ w', Drifts exec w w' ∧ w'.evd.loop = .selecting := by
  unfold Watched.returning at returning
  split at returning
  · rename_i pc
    exact ⟨w, ⟨.start, rfl, rfl, id⟩, pc⟩
  · rename_i batch pc
    exact drifts_running batch pc (by simpa using returning)
  · rename_i pc
    exact drifts_cleared pc (by simpa using returning)
  · rename_i pc
    exact drifts_testing pc (by simpa using returning)
  · cases returning

/-- Once the last call has returned, a queue that is not announced stays so until the loop is blocked. -/
theorem lost_of_returned (returned : ∀ i, (w.evd.callers i).unread = false ∧
      (w.evd.callers i).woken = false)
    (returning : w.returning = true) (waiting : w.evd.pending ≠ []) (silent : w.written = false) :
    ∃ w', Transition.Reaches (Steps exec) Transition.Free w w' ∧ w'.Lost := by
  obtain ⟨w', drifts, blocked⟩ : ∃ w', Drifts exec w w' ∧ w'.evd.loop = .selecting :=
    drifts_to_select returning
  exact ⟨w', drifts.run, blocked, drifts.callers ▸ returned, drifts.pending ▸ waiting,
    drifts.silent silent⟩

/-- The condition is exact: from a call that reads the flag otherwise, while no other call is on its
way, some run loses the wakeup. -/
theorem lost_of_unannounced {a : EventDispatcher.Act F} (late : ¬ w.Announced a)
    (alone : ∀ i, a = .caller i → ∀ j, j ≠ i →
      (w.evd.callers j).unread = false ∧ (w.evd.callers j).woken = false) :
    ∃ w', Transition.Reaches (Steps exec) Transition.Free w w' ∧ w'.Lost := by
  simp only [Announced, not_forall] at late
  obtain ⟨i, sync, ticket, rfl, pc, returning, waiting, silent, unheard⟩ := late
  have returned (d : EventDispatcher F W) (same : ∀ j, j ≠ i → d.callers j = w.evd.callers j) (j : Nat) :
      ((d.afterWakeup i sync ticket).callers j).unread = false ∧
        ((d.afterWakeup i sync ticket).callers j).woken = false := by
    by_cases here : j = i
    · subst here
      cases sync <;> simp [EventDispatcher.afterWakeup, EventDispatcher.setCaller, CallerPc.unread,
        CallerPc.woken]
    · simpa only [EventDispatcher.afterWakeup, EventDispatcher.setCaller,
        Function.update_of_ne here, same j here] using alone i rfl j here
  have filled : w.evd.pending.isEmpty = false := by simpa using waiting
  cases flag : w.evd.callingPendingFunctor with
  | false =>
    let w₁ : Watched F W := ⟨w.evd.afterWakeup i sync ticket, w.record (w.evd.afterWakeup i sync ticket)⟩
    have first : Steps exec w (.caller i) w₁ := by
      simp [Steps, step, EventDispatcher.step, EventDispatcher.callerStep, pc, flag, w₁]
    have quiet : w₁.written = false := by
      simp [w₁, record, filled, silent, EventDispatcher.afterWakeup, EventDispatcher.setCaller]
    obtain ⟨w', rest, lost⟩ : ∃ w', Transition.Reaches (Steps exec) Transition.Free w₁ w' ∧ w'.Lost :=
      lost_of_returned (returned _ fun _ _ => rfl) returning waiting quiet
    exact ⟨w', (Transition.Reaches.step .start trivial first).trans rest, lost⟩
  | true =>
    have wrong : w.evd.wakeupFd ≠ w.evd.eventfd := fun fd => unheard ⟨fd, .inl flag⟩
    let d : EventDispatcher F W := w.evd.setCaller i (.waking sync ticket)
    let w₁ : Watched F W := ⟨d, w.record d⟩
    let w₂ : Watched F W := ⟨d.afterWakeup i sync ticket, w₁.record (d.afterWakeup i sync ticket)⟩
    have first : Steps exec w (.caller i) w₁ := by
      simp [Steps, step, EventDispatcher.step, EventDispatcher.callerStep, pc, flag, w₁, d]
    have second : Steps exec w₁ (.caller i) w₂ := by
      have nowhere : d.wakeup = d := if_neg wrong
      have here : d.callers i = .waking sync ticket := Function.update_self ..
      simp [Steps, step, EventDispatcher.step, EventDispatcher.callerStep, w₁, w₂, here, nowhere]
    have quiet : w₂.written = false := by
      simp [w₂, w₁, d, record, filled, silent, EventDispatcher.afterWakeup, EventDispatcher.setCaller]
    have others (j : Nat) (other : j ≠ i) : d.callers j = w.evd.callers j :=
      Function.update_of_ne other ..
    obtain ⟨w', rest, lost⟩ : ∃ w', Transition.Reaches (Steps exec) Transition.Free w₂ w' ∧ w'.Lost :=
      lost_of_returned (returned d others) returning waiting quiet
    exact ⟨w', ((Transition.Reaches.step .start trivial first).step trivial second).trans rest, lost⟩

/-- Every call reads the flag before the swap, or reads true with the right descriptor. -/
def prompt (w : Watched F W) : EventDispatcher.Act F → Bool
  | .caller _ => !w.returning ||
      decide (w.evd.wakeupFd = w.evd.eventfd) && w.evd.callingPendingFunctor
  | _ => true

theorem prompt_announced (w : Watched F W) (a : EventDispatcher.Act F) (check : w.prompt a = true) :
    w.Announced a := by
  rintro i sync ticket rfl _ returning _ _
  have right : w.evd.wakeupFd = w.evd.eventfd ∧ w.evd.callingPendingFunctor = true := by
    simpa [prompt, returning] using check
  exact ⟨right.1, .inl right.2⟩

/-- With a descriptor that is right, a functor queued while others run is announced. -/
theorem announced_not_lost_running : ∃ w : Watched Unit Nat,
    Transition.Reaches (Steps fun _ w => w + 1) Announced (new 7 7 0) w ∧
      w.evd.loop = .selecting ∧ w.evd.pending ≠ [] ∧ ¬ w.Lost := by
  have run := Transition.Reaches.of_checked (Watched.step fun _ w => w + 1) prompt prompt_announced
    (s := (new 7 7 0 : Watched Unit Nat)) [.loop, .loop, .loop, .runInEvd 1 (), .caller 1, .caller 1,
      .caller 1, .loop, .loop, .loop] rfl
  exact ⟨_, run, rfl, List.cons_ne_nil _ _, announced_not_lost _ _ _ _ _ run⟩

/-- The loop is in `Select`, so that the flag is false; or the functor is queued while others run, and
the write goes to the descriptor that the constructor leaves unset. -/
theorem wakeup_lost :
    (∃ w : Watched Unit Nat,
      Transition.Reaches (Steps fun _ w => w + 1) Transition.Free (new 7 7 0) w ∧ w.Lost) ∧
    ∃ w : Watched Unit Nat,
      Transition.Reaches (Steps fun _ w => w + 1) Transition.Free (new 0 7 0) w ∧ w.Lost := by
  constructor
  · refine ⟨_, Transition.Reaches.of_labels _ [.runInEvd 1 (), .caller 1, .caller 1] rfl, rfl, ?_,
      List.cons_ne_nil _ _, rfl⟩
    intro i
    by_cases same : i = 1 <;>
      simp [same, new, EventDispatcher.new, EventDispatcher.setCaller, EventDispatcher.afterWakeup,
        EventDispatcher.runInEvd, EventDispatcher.push, CallerPc.unread, CallerPc.woken]
  · refine ⟨_, Transition.Reaches.of_labels _ [.loop, .loop, .loop, .runInEvd 1 (), .caller 1,
      .caller 1, .caller 1, .loop, .loop, .loop] rfl, rfl, ?_, List.cons_ne_nil _ _, rfl⟩
    intro i
    by_cases same : i = 1 <;>
      simp [same, new, EventDispatcher.new, EventDispatcher.setCaller, EventDispatcher.afterWakeup,
        EventDispatcher.runInEvd, EventDispatcher.push, EventDispatcher.wakeup, CallerPc.unread,
        CallerPc.woken]

end Watched
end Yamq
