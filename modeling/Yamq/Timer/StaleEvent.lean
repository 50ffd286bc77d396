import Yamq.Timer.TimerEffects

/-! The timerfd event of a batch, when handlers of earlier events of the batch add and cancel timers. -/
namespace Yamq

/-- What handlers of other channels do to the timer queue, and the time that passes. -/
def TimerOp.Handler : TimerOp → Prop
  | .clock _ => True
  | .addTimer .. => True
  | .cancelTimer _ => True
  | _ => False

namespace TimerLoop

open Transition TimerQueue TimerTree

variable {T N : Type} [TimerTree T N] {l l' : TimerLoop T N} {op : TimerOp} {ops : List TimerOp}

/-- `rbtree_min(_tree)->key` in the tree with a new timer. -/
def leastWith (l : TimerLoop T N) (expire : UInt64) : Except Fault Int := do
  let (tree, _) ← insertTimer l.queue.tree (toLongLong expire) l.queue.allocated
  return (← entryOf tree (← minNode tree)).key

/-- The instant for which an `AddTimer` arms the timerfd anew, when its timer is the least one. -/
def rearmsFor (l : TimerLoop T N) : TimerOp → Option UInt64
  | .addTimer time _ _ =>
    let expire := l.queue.clock - l.queue.ownEpoch + time
    match l.leastWith expire with
    | .ok key => if toLongLong expire ≤ key then some (l.queue.ownEpoch + expire) else none
    | .error _ => none
  | _ => none

/-- Some operation arms the timerfd anew. -/
def Rearms (l : TimerLoop T N) : List TimerOp → Prop
  | [] => False
  | op :: ops => (l.rearmsFor op).isSome ∨ ∃ l', Steps l op l' ∧ Rearms l' ops

/-- The clock reaches an instant. -/
def Reached (deadline : UInt64) (ops : List TimerOp) : Prop := ∃ now, .clock now ∈ ops ∧ deadline ≤ now

/-- The last operation that arms the timerfd anew does so for an instant that has passed at the end. -/
def InTime (l : TimerLoop T N) : List TimerOp → Prop
  | [] => True
  | op :: ops => ∀ l', Steps l op l' → InTime l' ops ∧ ∀ deadline, l.rearmsFor op = some deadline →
      Rearms l' ops ∨ deadline ≤ l.queue.clock ∨ Reached deadline ops

/-- What an operation of a handler does to the timerfd. -/
theorem handler_timerfd (handler : op.Handler) (steps : Steps l op l') :
    (∃ now, op = .clock now ∧ l'.queue.timerfd = l.queue.timerfd.tick now) ∨
    ((∀ now, op ≠ .clock now) ∧ ((∃ deadline, l.rearmsFor op = some deadline ∧
        l'.queue.timerfd = .arm deadline l.queue.clock) ∨
      l.rearmsFor op = none ∧ l'.queue.timerfd = l.queue.timerfd)) := by
  cases step_effect steps with
  | clock now => exact .inl ⟨now, rfl, rfl⟩
  | unknown => exact .inr ⟨nofun, .inr ⟨rfl, rfl⟩⟩
  | cancelled => exact .inr ⟨nofun, .inr ⟨rfl, rfl⟩⟩
  | @added time interval cb id tree n fd calls free inserted =>
    obtain ⟨least, e, first, read, same⟩ := inserted.rearmed
    have placed : insertTimer l.queue.tree (toLongLong (l.queue.clock - l.queue.ownEpoch + time))
        l.queue.allocated = .ok (tree, n) := inserted.inserted
    have key : l.leastWith (l.queue.clock - l.queue.ownEpoch + time) = .ok e.key := by
      simp only [leastWith, placed, ok_bind, first, read, pure_ok]
    refine .inr ⟨nofun, ?_⟩
    by_cases least_ : toLongLong (l.queue.clock - l.queue.ownEpoch + time) ≤ e.key
    · refine .inl ⟨l.queue.ownEpoch + (l.queue.clock - l.queue.ownEpoch + time), ?_, ?_⟩
      · simp only [rearmsFor, key, if_pos least_]
      · exact same.trans (if_pos least_)
    · refine .inr ⟨?_, ?_⟩
      · simp only [rearmsFor, key, if_neg least_]
      · exact same.trans (if_neg least_)
  | ticked => exact absurd handler not_false
  | read => exact absurd handler not_false
  | finished => exact absurd handler not_false
  | rearmed => exact absurd handler not_false
  | fired => exact absurd handler not_false
  | dropped => exact absurd handler not_false
  | readded => exact absurd handler not_false
  | ended => exact absurd handler not_false

theorem reached_cons {deadline : UInt64} : Reached deadline (op :: ops) ↔
    (∃ now, op = .clock now ∧ deadline ≤ now) ∨ Reached deadline ops := by
  simp only [Reached, List.mem_cons]
  constructor
  · rintro ⟨now, same | later, le⟩
    · exact .inl ⟨now, same.symm, le⟩
    · exact .inr ⟨now, later, le⟩
  · rintro (⟨now, rfl, le⟩ | ⟨now, later, le⟩)
    · exact ⟨now, .inl rfl, le⟩
    · exact ⟨now, .inr later, le⟩

/-- The timerfd will be readable, if nothing arms it anew. -/
def Due (ops : List TimerOp) (fd : Timerfd) : Prop :=
  fd = .readable ∨ ∃ deadline, fd = .armed deadline ∧ Reached deadline ops

theorem due_tick {now : UInt64} {fd : Timerfd} :
    Due ops (fd.tick now) ↔ Due (.clock now :: ops) fd := by
  cases fd with
  | off => simp [Due, Timerfd.tick]
  | readable => simp [Due, Timerfd.tick]
  | armed deadline =>
    simp only [Timerfd.tick, Due, reached_cons, TimerOp.clock.injEq, exists_eq_left']
    split
    · rename_i passed
      simp [passed]
    · rename_i ahead
      simp [ahead]

theorem due_other {fd : Timerfd} (other : ∀ now, op ≠ .clock now) : Due (op :: ops) fd ↔ Due ops fd := by
  simp [Due, reached_cons, other]

theorem due_arm {deadline now : UInt64} :
    Due ops (.arm deadline now) ↔ deadline ≤ now ∨ Reached deadline ops := by
  unfold Timerfd.arm
  split
  · rename_i passed
    simp [Due, passed]
  · rename_i ahead
    simp [Due, ahead]

theorem readable_iff (handlers : ∀ op ∈ ops, op.Handler) (run : ops.foldlM next l = some l') :
    l'.queue.timerfd = .readable ↔ InTime l ops ∧ (Rearms l ops ∨ Due ops l.queue.timerfd) := by
  induction ops generalizing l with
  | nil =>
    cases run
    simp [InTime, Rearms, Due, Reached]
  | cons op ops ih =>
    rw [List.foldlM_cons] at run
    obtain ⟨l₁, steps, rest⟩ := Option.bind_eq_some_iff.mp run
    rw [List.forall_mem_cons] at handlers
    rw [ih handlers.2 rest]
    have only (l₂ : TimerLoop T N) (again : Steps l op l₂) : l₂ = l₁ :=
      Option.some.inj (again.symm.trans steps)
    have inTime : InTime l (op :: ops) ↔ InTime l₁ ops ∧ ∀ deadline, l.rearmsFor op = some deadline →
        Rearms l₁ ops ∨ deadline ≤ l.queue.clock ∨ Reached deadline ops := by
      constructor
      · exact fun h => h l₁ steps
      · intro h l₂ again
        rw [only l₂ again]
        exact h
    have rearms : Rearms l (op :: ops) ↔ (l.rearmsFor op).isSome ∨ Rearms l₁ ops := by
      refine or_congr_right ⟨?_, fun later => ⟨l₁, steps, later⟩⟩
      rintro ⟨l₂, again, later⟩
      exact only l₂ again ▸ later
    rw [inTime, rearms]
    rcases handler_timerfd handlers.1 steps with ⟨now, rfl, fd⟩ | ⟨other, ⟨deadline, some_, fd⟩ | ⟨none, fd⟩⟩
    · rw [fd, due_tick]
      simp [rearmsFor]
    · rw [fd, due_arm, due_other other, some_]
      simp only [Option.some.injEq, forall_eq', Option.isSome_some, true_or, and_true]
    · rw [fd, due_other other, none]
      simp

/-- For every batch that contains the readable timerfd, and all that handlers of earlier events do:
`HandleRead` finds the timerfd readable exactly when the last `AddTimer` that arms it anew does so for
an instant that has passed by then. -/
theorem handleRead_readable_iff (l l' : TimerLoop T N) (ops : List TimerOp)
    (readable : l.queue.timerfd = .readable) (handlers : ∀ op ∈ ops, op.Handler)
    (run : ops.foldlM next l = some l') :
    l'.queue.readTimerfd ≠ .error (.fault .abort) ↔ InTime l ops := by
  have finds : l'.queue.readTimerfd ≠ .error (.fault .abort) ↔ l'.queue.timerfd = .readable := by
    unfold readTimerfd
    split
    · rename_i yes
      exact iff_of_true nofun yes
    · rename_i no
      exact iff_of_false (fun h => h rfl) no
  rw [finds, readable_iff handlers run, readable]
  simp [Due]

/-- A handler that only cancels the due timer. -/
theorem handleRead_readable_iff_cancelled : ∃ l l' : TimerLoop (Rbtree Nat) Ptr,
    l.queue.timerfd = .readable ∧ [.cancelTimer 1].foldlM next l = some l' ∧
      l'.queue.readTimerfd ≠ .error (.fault .abort) := by
  have steps : ([.addTimer 10 1 7, .clock 1010].foldlM next (start (Rbtree.create 0) 1000) >>= fun l =>
      ([.cancelTimer 1].foldlM next l).map fun l' => (l, l')).any
        fun x => x.1.queue.timerfd = .readable := by
    decide +kernel
  obtain ⟨⟨l, l'⟩, made, test⟩ := (Option.any_eq_true _ _).mp steps
  obtain ⟨_, _, made⟩ := Option.bind_eq_some_iff.mp made
  obtain ⟨_, run, same⟩ := Option.map_eq_some_iff.mp made
  cases same
  have readable : l.queue.timerfd = .readable := of_decide_eq_true test
  refine ⟨l, l', readable, run, (handleRead_readable_iff l l' _ readable ?_ run).mpr ?_⟩
  · simp [TimerOp.Handler]
  · exact fun _ _ => ⟨trivial, nofun⟩

/-- A handler cancels the due timer and adds another, for which the timerfd is armed anew: the event
of the batch is stale, and `HandleRead` stops the process. -/
theorem handleRead_aborts : ∃ l l' : TimerLoop (Rbtree Nat) Ptr,
    Reaches Steps Free (start (Rbtree.create 0) 1000) l ∧ l.queue.timerfd = .readable ∧
      [.cancelTimer 1, .addTimer 5 1 7].foldlM next l = some l' ∧
      l'.step .handleRead = some (.error (.fault .abort)) := by
  have steps : ([.addTimer 10 1 7, .clock 1010].foldlM next (start (Rbtree.create 0) 1000) >>= fun l =>
      ([.cancelTimer 1, .addTimer 5 1 7].foldlM next l).map fun l' => (l, l')).any
        fun x => x.1.queue.timerfd = .readable ∧ x.2.pc = .idle ∧ x.2.queue.timerfd ≠ .readable := by
    decide +kernel
  obtain ⟨⟨l, l'⟩, made, test⟩ := (Option.any_eq_true _ _).mp steps
  obtain ⟨_, begun, made⟩ := Option.bind_eq_some_iff.mp made
  obtain ⟨_, run, same⟩ := Option.map_eq_some_iff.mp made
  cases same
  obtain ⟨readable, idle, stale⟩ := of_decide_eq_true test
  refine ⟨l, l', .of_labels next _ begun, readable, run, ?_⟩
  have reads : l'.queue.readTimerfd = .error (.fault .abort) := if_neg stale
  simp only [step, reads, error_bind]
  exact if_pos idle

end TimerLoop

end Yamq
