import Yamq.Timer.TimerRefs

/-! What a step of the loop does to one timer. -/
namespace Yamq

/-- What the second loop of `PerTick` has not visited yet. -/
def TickPc.rest : TickPc → List Nat
  | .idle => []
  | .visiting rest _ => rest
  | .calling _ rest _ => rest

/-- The callback of the timer is running. -/
def TickPc.InCallback (pc : TickPc) (p : Nat) : Prop := ∃ rest handling, pc = .calling p rest handling

theorem TickPc.mem_batch {pc : TickPc} {p : Nat} : p ∈ pc.batch ↔ pc.InCallback p ∨ p ∈ pc.rest := by
  cases pc with
  | idle => simp [batch, rest, InCallback]
  | visiting rest handling => simp [batch, TickPc.rest, InCallback]
  | calling x rest handling =>
    simp only [batch, TickPc.rest, InCallback, List.mem_cons, calling.injEq, exists_and_left,
      exists_eq', and_true]
    rw [@eq_comm _ p x]

/-- The start of a tick. -/
def TimerOp.starts : TimerOp → Bool
  | .perTick => true
  | .handleRead => true
  | _ => false

namespace TimerLoop

open TimerQueue

variable {T N : Type}

/-- The step adds the timer, ends its callback, or takes it for the tick. -/
def Concerns (l l' : TimerLoop T N) (p : Nat) : TimerOp → Prop
  | .addTimer _ _ _ => p = l.queue.allocated
  | .return_ => l.pc.InCallback p
  | .perTick => p ∈ l'.pc.rest
  | .handleRead => p ∈ l'.pc.rest
  | _ => False

/-- A step goes past a timer. -/
structure Passes (l : TimerLoop T N) (p : Nat) (op : TimerOp) (l' : TimerLoop T N) : Prop where
  timer : l'.queue.timers p = l.queue.timers p
  count : l'.history.count (.fired p) = l.history.count (.fired p)
  calling : l'.pc.InCallback p ↔ l.pc.InCallback p
  rest : p ∈ l'.pc.rest ↔ p ∈ l.pc.rest
  outside : ¬ Concerns l l' p op

variable [TimerTree T N] {l l' : TimerLoop T N} {op : TimerOp} {p : Nat}

/-- The ways through the code, as one timer sees them. -/
inductive OneStep (l : TimerLoop T N) (p : Nat) (op : TimerOp) (l' : TimerLoop T N) : Prop where
  | passes (passes : Passes l p op l')
  | added (time interval : UInt64) (cb : Nat) (id : Int) (n : N) (adds : op = .addTimer time interval cb)
      (new : p = l.queue.allocated) (pc : l'.pc = l.pc)
      (timer : l'.queue.timers p = some { newTimer (N := N) id time interval cb with
        expire := l.queue.clock - l.queue.ownEpoch + time, attach := some n })
      (count : l'.history.count (.fired p) = l.history.count (.fired p))
  | taken (timer : Timer N) (starts : op.starts) (idle : l.pc = .idle)
      (here : l.queue.timers p = some timer)
      (due : timer.expire < l.queue.clock - l.queue.ownEpoch)
      (left : l'.queue.timers p = some { timer with attach := none })
      (pc : ¬ l'.pc.InCallback p ∧ p ∈ l'.pc.rest) (history : l'.history = l.history)
  | fired (timer : Timer N) (rest : List Nat) (handling : Bool) (visits : op = .visit)
      (pc : l.pc = .visiting (p :: rest) handling) (here : l.queue.timers p = some timer)
      (more : 0 < timer.elapse)
      (left : l'.queue.timers p = some { timer with elapse := timer.elapse - 1 })
      (calling : l'.pc = .calling p rest handling) (history : l'.history = l.history ++ [.fired p])
  | dropped (timer : Timer N) (rest : List Nat) (handling : Bool) (visits : op = .visit)
      (pc : l.pc = .visiting (p :: rest) handling) (here : l.queue.timers p = some timer)
      (last : ¬ 0 < timer.elapse) (left : l'.queue.timers p = none)
      (visiting : l'.pc = .visiting rest handling) (history : l'.history = l.history)
  | rearmed (timer : Timer N) (rest : List Nat) (handling : Bool) (n : N) (returns : op = .return_)
      (pc : l.pc = .calling p rest handling) (here : l.queue.timers p = some timer)
      (more : 0 < timer.elapse)
      (left : l'.queue.timers p = some { timer with
        expire := l.queue.clock - l.queue.ownEpoch + timer.time, attach := some n })
      (visiting : l'.pc = .visiting rest handling) (history : l'.history = l.history)
  | ended (timer : Timer N) (rest : List Nat) (handling : Bool) (returns : op = .return_)
      (pc : l.pc = .calling p rest handling) (here : l.queue.timers p = some timer)
      (last : ¬ 0 < timer.elapse) (left : l'.queue.timers p = none)
      (visiting : l'.pc = .visiting rest handling) (history : l'.history = l.history)
  | cancelled (id : Int) (timer : Timer N) (cancels : op = .cancelTimer id)
      (known : l.queue.ref.lookup id = some (some p)) (here : l.queue.timers p = some timer)
      (left : l'.queue.timers p = none) (pc : l'.pc = l.pc)
      (count : l'.history.count (.fired p) = l.history.count (.fired p))

/-- The start of a tick takes a timer or goes past it. -/
theorem one_tick {q mid : TimerQueue T N} {batch : List Nat} {handling : Bool} (idle : l.pc = .idle)
    (starts : op.starts) (timers : mid.timers = l.queue.timers)
    (clock : mid.clock - mid.ownEpoch = l.queue.clock - l.queue.ownEpoch)
    (run : mid.expiredTimers = .ok (q, batch)) :
    OneStep l p op ⟨q, .visiting batch handling, l.history⟩ := by
  obtain ⟨taken, same, collected⟩ := collect_ok run
  rw [List.nil_append] at same
  subst same
  rw [clock] at collected
  have calls : ¬ (TickPc.visiting batch handling).InCallback p := by
    rintro ⟨_, _, pc⟩
    cases pc
  by_cases member : p ∈ batch
  · obtain ⟨timer, here, due, left⟩ := collected.due p member
    rw [timers] at here
    exact .taken timer starts idle here due left ⟨calls, member⟩ rfl
  · refine .passes ⟨?_, rfl, iff_of_false calls ?_, iff_of_false member ?_, ?_⟩
    · exact (collected.others p member).trans (congrFun timers p)
    · rintro ⟨_, _, pc⟩
      cases idle.symm.trans pc
    · rw [idle]
      exact List.not_mem_nil
    · cases op with
      | perTick => exact member
      | handleRead => exact member
      | _ => cases starts

omit [TimerTree T N] in
/-- The turn of another timer. -/
theorem passes_turn {x : Nat} {rest : List Nat} (differs : p ≠ x)
    (timers : ∀ y, y ≠ x → l'.queue.timers y = l.queue.timers y)
    (count : l'.history.count (.fired p) = l.history.count (.fired p))
    (batch : l.pc.batch = x :: rest) (rest' : l'.pc.rest = rest)
    (calls : ∀ y, l'.pc.InCallback y → y = x) (turn : op = .visit ∨ op = .return_) :
    Passes l p op l' := by
  have before : ¬ l.pc.InCallback p := by
    rintro ⟨_, _, pc⟩
    rw [pc] at batch
    exact differs (List.cons.inj batch).1
  refine ⟨timers p differs, count, iff_of_false (fun calling => differs (calls p calling)) before,
    ?_, ?_⟩
  · have member : p ∈ l.pc.batch ↔ p ∈ rest := by
      rw [batch, List.mem_cons, or_iff_right differs]
    rw [rest', ← member, TickPc.mem_batch, or_iff_right before]
  · rcases turn with rfl | rfl
    · exact not_false
    · exact before

/-- What a step does to a timer: one case for each way through the code. -/
theorem step_one (steps : Steps l op l') (p : Nat) : OneStep l p op l' := by
  cases step_effect steps with
  | clock now => exact .passes ⟨rfl, rfl, Iff.rfl, Iff.rfl, not_false⟩
  | @added time interval cb id tree n fd calls free inserted =>
    have count : (l.history ++ [TimerEvent.added l.queue.allocated]).count (.fired p) =
        l.history.count (.fired p) := by
      simp
    by_cases new : p = l.queue.allocated
    · refine .added time interval cb id n rfl new rfl ?_ count
      rw [new, placed_timers, Function.update_self]
      rfl
    · refine .passes ⟨?_, count, Iff.rfl, Iff.rfl, new⟩
      rw [placed_timers, Function.update_of_ne new, created_timers, if_neg new]
  | unknown calls same nothing => exact .passes ⟨rfl, rfl, Iff.rfl, Iff.rfl, not_false⟩
  | @cancelled id x timer tree calls known here deleted =>
    have count : (l.history ++ [TimerEvent.cancelled x]).count (.fired p) =
        l.history.count (.fired p) := by
      simp
    by_cases same : p = x
    · subst same
      exact .cancelled id timer rfl known here (Function.update_self ..) rfl count
    · exact .passes ⟨Function.update_of_ne same .., count, Iff.rfl, Iff.rfl, not_false⟩
  | ticked idle run => exact one_tick idle rfl rfl rfl run
  | read idle readable run =>
    refine one_tick idle rfl ?_ ?_ run
    · rfl
    · rfl
  | finished pc =>
    refine .passes ⟨rfl, rfl, ?_, ?_, not_false⟩
    · simp [pc, TickPc.InCallback]
    · simp [pc, TickPc.rest]
  | rearmed pc run =>
    obtain ⟨fd, rfl⟩ := rearm_ok run
    refine .passes ⟨rfl, rfl, ?_, ?_, not_false⟩
    · simp [pc, TickPc.InCallback]
    · simp [pc, TickPc.rest]
  | @fired x rest handling timer pc here more =>
    by_cases same : p = x
    · subst same
      exact .fired timer rest handling rfl pc here more (Function.update_self ..) rfl rfl
    · refine .passes (passes_turn same (fun y other => Function.update_of_ne other ..) ?_
        (by rw [pc]; rfl) rfl ?_ (.inl rfl))
      · simp [Ne.symm same]
      · rintro y ⟨_, _, calling⟩
        cases calling
        rfl
  | @dropped x rest handling timer pc here last =>
    by_cases same : p = x
    · subst same
      exact .dropped timer rest handling rfl pc here last (Function.update_self ..) rfl rfl
    · refine .passes (passes_turn same (fun y other => Function.update_of_ne other ..) rfl
        (by rw [pc]; rfl) rfl ?_ (.inl rfl))
      rintro y ⟨_, _, calling⟩
      cases calling
  | @readded x rest handling timer tree n fd pc here more inserted =>
    by_cases same : p = x
    · subst same
      exact .rearmed timer rest handling n rfl pc here more (Function.update_self ..) rfl rfl
    · refine .passes (passes_turn same (fun y other => Function.update_of_ne other ..) rfl
        (by rw [pc]; rfl) rfl ?_ (.inr rfl))
      rintro y ⟨_, _, calling⟩
      cases calling
  | @ended x rest handling timer pc here last =>
    by_cases same : p = x
    · subst same
      exact .ended timer rest handling rfl pc here last (Function.update_self ..) rfl rfl
    · refine .passes (passes_turn same (fun y other => Function.update_of_ne other ..) rfl
        (by rw [pc]; rfl) rfl ?_ (.inr rfl))
      rintro y ⟨_, _, calling⟩
      cases calling

/-- An addition, as the new timer sees it. -/
theorem step_added {time interval : UInt64} {cb : Nat} (steps : Steps l (.addTimer time interval cb) l') :
    ∃ id n, l'.pc = l.pc ∧ l'.queue.timers l.queue.allocated =
        some { newTimer (N := N) id time interval cb with
          expire := l.queue.clock - l.queue.ownEpoch + time, attach := some n } ∧
      l'.history.count (.fired l.queue.allocated) = l.history.count (.fired l.queue.allocated) := by
  cases step_one steps l.queue.allocated with
  | passes passes => exact absurd rfl passes.outside
  | added _ _ _ id n adds _ pc timer count =>
    cases adds
    exact ⟨id, n, pc, timer, count⟩
  | taken _ starts => cases starts
  | fired _ _ _ visits => cases visits
  | dropped _ _ _ visits => cases visits
  | rearmed _ _ _ _ returns => cases returns
  | ended _ _ _ returns => cases returns
  | cancelled _ _ cancels => cases cancels

theorem allocated_le (steps : Steps l op l') : l.queue.allocated ≤ l'.queue.allocated := by
  cases step_objects steps with
  | same _ same => exact Nat.le_of_eq same.allocated.symm
  | created _ timer free same =>
    rw [same.allocated]
    exact Nat.le_succ _
  | deleted _ timer _ _ same => exact Nat.le_of_eq same.allocated.symm

theorem fired_iff_count {history : List TimerEvent} :
    .fired p ∉ history ↔ history.count (.fired p) = 0 := List.count_eq_zero.symm

/-- A timer that is not there yet has not fired. -/
theorem unborn_step (refs : Refs l.queue) (steps : Steps l op l')
    (silent : ∀ p, l.queue.allocated ≤ p → .fired p ∉ l.history) (later : l'.queue.allocated ≤ p) :
    .fired p ∉ l'.history := by
  have late := Nat.le_trans (allocated_le steps) later
  have silent := silent p late
  have unknown {timer : Timer N} (here : l.queue.timers p = some timer) : False :=
    Nat.lt_irrefl _ (Nat.lt_of_lt_of_le (refs.known p timer here).1 late)
  rw [fired_iff_count] at silent ⊢
  cases step_one steps p with
  | passes passes => exact passes.count.trans silent
  | added _ _ _ _ _ _ _ _ _ count => exact count.trans silent
  | taken _ _ _ here => exact (unknown here).elim
  | fired _ _ _ _ _ here => exact (unknown here).elim
  | dropped _ _ _ _ _ here => exact (unknown here).elim
  | rearmed _ _ _ _ _ _ here => exact (unknown here).elim
  | ended _ _ _ _ _ here => exact (unknown here).elim
  | cancelled _ _ _ _ _ _ _ count => exact count.trans silent

/-- What has happened stays in the history. -/
theorem history_step (steps : Steps l op l') : ∃ events, l'.history = l.history ++ events := by
  cases step_effect steps with
  | added => exact ⟨_, rfl⟩
  | cancelled => exact ⟨_, rfl⟩
  | fired => exact ⟨_, rfl⟩
  | _ => exact ⟨[], (List.append_nil _).symm⟩

/-- A timer that was deleted. -/
structure Gone (p : Nat) (l : TimerLoop T N) : Prop where
  old : p < l.queue.allocated
  deleted : l.queue.timers p = none

theorem Gone.step (h : Gone p l) (steps : Steps l op l') : Gone p l' := by
  refine ⟨Nat.lt_of_lt_of_le h.old (allocated_le steps), ?_⟩
  have dead {timer : Timer N} (here : l.queue.timers p = some timer) : l'.queue.timers p = none := by
    cases h.deleted.symm.trans here
  cases step_one steps p with
  | passes passes => exact passes.timer.trans h.deleted
  | added _ _ _ _ _ _ new => exact absurd h.old (by rw [new]; exact Nat.lt_irrefl _)
  | taken _ _ _ here => exact dead here
  | fired _ _ _ _ _ here => exact dead here
  | dropped _ _ _ _ _ here => exact dead here
  | rearmed _ _ _ _ _ _ here => exact dead here
  | ended _ _ _ _ _ here => exact dead here
  | cancelled _ _ _ _ here => exact dead here

end TimerLoop
end Yamq
