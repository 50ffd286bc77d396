import Yamq.Timer.OneTimer

/-! The intervals 0 and -1 of `EventDispatcher::AddTimer`. -/
namespace Yamq.TimerLoop

open Transition TimerQueue

variable {T N : Type} [TimerTree T N] {l l' : TimerLoop T N} {op : TimerOp} {p : Nat}

/-- What every run keeps: a timer that is not there yet has not fired. -/
structure Newborn (l : TimerLoop T N) : Prop where
  refs : Refs l.queue
  silent : ∀ p, l.queue.allocated ≤ p → .fired p ∉ l.history

theorem Newborn.step (h : Newborn l) (steps : Steps l op l') : Newborn l' :=
  ⟨refs_step h.refs steps, fun _ later => unborn_step h.refs steps h.silent later⟩

/-- A timer that has no turn left and has never fired. -/
structure Mute (p : Nat) (l : TimerLoop T N) : Prop where
  old : p < l.queue.allocated
  spent : ∀ timer, l.queue.timers p = some timer → ¬ 0 < timer.elapse
  silent : .fired p ∉ l.history

theorem Mute.step (h : Mute p l) (steps : Steps l op l') : Mute p l' := by
  obtain ⟨old, spent, silent⟩ := h
  have old' := Nat.lt_of_lt_of_le old (allocated_le steps)
  rw [fired_iff_count] at silent
  have dead (gone : l'.queue.timers p = none) (count : l'.history.count (.fired p) =
      l.history.count (.fired p)) : Mute p l' := by
    refine ⟨old', fun timer here => ?_, fired_iff_count.mpr (count.trans silent)⟩
    cases gone.symm.trans here
  cases step_one steps p with
  | passes passes =>
    refine ⟨old', ?_, fired_iff_count.mpr (passes.count.trans silent)⟩
    rw [passes.timer]
    exact spent
  | added _ _ _ _ _ _ new => exact absurd old (by rw [new]; exact Nat.lt_irrefl _)
  | taken timer _ _ here _ left _ history =>
    refine ⟨old', fun timer' there => ?_, fired_iff_count.mpr (by rw [history]; exact silent)⟩
    cases left.symm.trans there
    exact spent timer here
  | fired timer _ _ _ _ here more => exact absurd more (spent timer here)
  | rearmed timer _ _ _ _ _ here more => exact absurd more (spent timer here)
  | dropped _ _ _ _ _ _ _ left _ history => exact dead left (by rw [history])
  | ended _ _ _ _ _ _ _ left _ history => exact dead left (by rw [history])
  | cancelled _ _ _ _ _ left _ count => exact dead left count

/-- Such a timer, once a tick has taken it: it waits for its turn, or it is deleted. -/
structure Discarded (p : Nat) (l : TimerLoop T N) : Prop where
  mute : Mute p l
  turn : p ∈ l.pc.rest ∨ l.queue.timers p = none

theorem Discarded.step (h : Discarded p l) (steps : Steps l op l') : Discarded p l' := by
  refine ⟨h.mute.step steps, ?_⟩
  cases step_one steps p with
  | passes passes =>
    rw [passes.rest, passes.timer]
    exact h.turn
  | added _ _ _ _ _ _ new => exact absurd h.mute.old (by rw [new]; exact Nat.lt_irrefl _)
  | taken _ _ _ _ _ _ pc => exact .inl pc.2
  | fired timer _ _ _ _ here more => exact absurd more (h.mute.spent timer here)
  | rearmed timer _ _ _ _ _ here more => exact absurd more (h.mute.spent timer here)
  | dropped _ _ _ _ _ _ _ left => exact .inr left
  | ended _ _ _ _ _ _ _ left => exact .inr left
  | cancelled _ _ _ _ _ left => exact .inr left

/-- A timer with such an interval has no turn from the start. -/
theorem special_mute {timeMs : Int64} {interval : Int32} {cb : Nat} (newborn : Newborn l)
    (special : interval = 0 ∨ interval = -1) (steps : Steps l (.evdAddTimer timeMs interval cb) l') :
    Mute l.queue.allocated l' := by
  have silent := newborn.silent l.queue.allocated (Nat.le_refl _)
  rw [fired_iff_count] at silent
  have none : ¬ 0 < interval.toInt64.toUInt64.toInt64 := by
    rcases special with rfl | rfl
    · decide
    · decide
  obtain ⟨id, n, _, timer, count⟩ := step_added steps
  have young : l.queue.allocated < l'.queue.allocated :=
    ((refs_step newborn.refs steps).known _ _ timer).1
  refine ⟨young, fun timer' there => ?_, fired_iff_count.mpr (count.trans silent)⟩
  cases timer.symm.trans there
  exact none

/-- In every run, whatever is added, cancelled and armed besides: a timer that
`EventDispatcher::AddTimer` adds with the interval 0 or -1 never fires, and the tick that finds it
expired deletes it and does not arm it again. -/
theorem special_never_fires (tree : T) (clock : UInt64) (l l₁ l₂ : TimerLoop T N)
    (run : Reaches Steps Free (start tree clock) l) (timeMs : Int64) (interval : Int32) (cb : Nat)
    (special : interval = 0 ∨ interval = -1) (added : Steps l (.evdAddTimer timeMs interval cb) l₁)
    (later : Reaches Steps Free l₁ l₂) :
    .fired l.queue.allocated ∉ l₂.history ∧ ∀ op l₃ l₄, op.starts → Steps l₂ op l₃ →
      l.queue.allocated ∈ l₃.pc.batch → Reaches Steps Free l₃ l₄ → l₄.pc = .idle →
      l₄.queue.timers l.queue.allocated = none := by
  have newborn : Newborn l := run.invariant ⟨start_refs tree clock, fun _ _ => List.not_mem_nil⟩
    fun _ _ _ h _ taken => h.step taken
  have mute : Mute l.queue.allocated l₂ := later.invariant (special_mute newborn special added)
    fun _ _ _ h _ taken => h.step taken
  refine ⟨mute.silent, fun op l₃ l₄ starts tick member rest idle => ?_⟩
  have first : Discarded l.queue.allocated l₃ := by
    refine ⟨mute.step tick, ?_⟩
    rcases TickPc.mem_batch.mp member with ⟨_, _, calling⟩ | waiting
    · cases step_effect tick with
      | ticked => cases calling
      | read => cases calling
      | _ => cases starts
    · exact .inl waiting
  have last : Discarded l.queue.allocated l₄ := rest.invariant first fun _ _ _ h _ taken => h.step taken
  refine last.turn.resolve_left ?_
  rw [idle]
  exact List.not_mem_nil

/-- A repeated timer of one millisecond is found expired by a tick, and is deleted when that ends. -/
theorem special_never_fires_once : ∃ l₁ l₂ l₃ l₄ : TimerLoop (Rbtree Nat) Ptr,
    Steps (start (Rbtree.create 0) 1000) (.evdAddTimer 1 (-1) 7) l₁ ∧ Steps l₁ (.clock 1001001) l₂ ∧
      Steps l₂ .perTick l₃ ∧ l₃.pc = .visiting [0] false ∧ Reaches Steps Free l₃ l₄ ∧ l₄.pc = .idle ∧
      .fired 0 ∉ l₂.history ∧ l₄.queue.timers 0 = none := by
  have steps : ((start (Rbtree.create 0) 1000).next (.evdAddTimer 1 (-1) 7) >>= fun l =>
      l.next (.clock 1001001) >>= fun l => (l.next .perTick).filter (fun l => l.pc = .visiting [0] false)
        >>= fun l => [.visit, .visit].foldlM next l).any fun l => l.pc = .idle := by
    decide +kernel
  obtain ⟨l₄, made, pc⟩ := (Option.any_eq_true _ _).mp steps
  obtain ⟨l₁, s₁, made⟩ := Option.bind_eq_some_iff.mp made
  obtain ⟨l₂, s₂, made⟩ := Option.bind_eq_some_iff.mp made
  obtain ⟨l₃, s₃, visits⟩ := Option.bind_eq_some_iff.mp made
  obtain ⟨s₃, taken⟩ := Option.filter_eq_some_iff.mp s₃
  have idle : l₄.pc = .idle := of_decide_eq_true pc
  have waits : l₃.pc = .visiting [0] false := of_decide_eq_true taken
  have member : 0 ∈ l₃.pc.batch := by
    rw [waits]
    exact List.mem_singleton_self 0
  have first : Reaches Steps Free l₁ l₂ := .step .start trivial s₂
  have rest : Reaches Steps Free l₃ l₄ := .of_labels next _ visits
  obtain ⟨silent, gone⟩ := special_never_fires (Rbtree.create 0) 1000 _ l₁ l₂ .start 1 (-1) 7 (.inr rfl)
    s₁ first
  exact ⟨l₁, l₂, l₃, l₄, s₁, s₂, s₃, waits, rest, idle, silent,
    gone .perTick l₃ l₄ rfl s₃ member rest idle⟩

/-- Such timers do not even fire once. -/
theorem special_silent : ∃ once repeated : TimerLoop (Rbtree Nat) Ptr,
    [.evdAddTimer 1 0 7, .clock 1001001, .perTick, .visit, .visit].foldlM next
        (start (Rbtree.create 0) 1000) = some once ∧
      [.evdAddTimer 1 (-1) 7, .clock 1001001, .perTick, .visit, .visit].foldlM next
        (start (Rbtree.create 0) 1000) = some repeated ∧
      (once.history = [.added 0] ∧ once.pc = .idle ∧ (once.queue.timers 0).isNone) ∧
      repeated.history = [.added 0] ∧ repeated.pc = .idle ∧ (repeated.queue.timers 0).isNone := by
  have runs : [(0 : Int32), -1].all fun interval =>
      ([.evdAddTimer 1 interval 7, .clock 1001001, .perTick, .visit, .visit].foldlM next
        (start (N := Ptr) (Rbtree.create 0) 1000)).any fun l =>
          l.history = [.added 0] ∧ l.pc = .idle ∧ (l.queue.timers 0).isNone := by
    decide +kernel
  have silent {interval : Int32} (special : interval ∈ [(0 : Int32), -1]) :=
    (Option.any_eq_true _ _).mp (List.all_eq_true.mp runs interval special)
  obtain ⟨once, run, test⟩ := silent (.head _)
  obtain ⟨repeated, run', test'⟩ := silent (.tail _ (.head _))
  exact ⟨once, repeated, run, run', of_decide_eq_true test, of_decide_eq_true test'⟩

end Yamq.TimerLoop
