import Yamq.Timer.EqualExpiry

/-! How often a timer fires, and when: additions, clock readings that do not go back, and ticks. -/
namespace Yamq

/-- The times and intervals of the timers that an operation adds. -/
def TimerOp.additions : TimerOp → List (UInt64 × UInt64)
  | .addTimer time interval _ => [(time, interval)]
  | _ => []

theorem TimerOp.additions_intervals (op : TimerOp) : op.additions.map Prod.snd = op.intervals := by
  cases op <;> rfl

theorem TimerOp.additions_get {op : TimerOp} {time interval : UInt64} {i : Nat}
    (here : op.additions[i]? = some (time, interval)) :
    ∃ cb, op = .addTimer time interval cb ∧ i = 0 := by
  have own : op.intervals[i]? = some interval := by
    rw [← op.additions_intervals, List.getElem?_map, here]
    rfl
  obtain ⟨time', cb, rfl, rfl⟩ := intervals_get own
  cases here
  exact ⟨cb, rfl, rfl⟩

namespace TimerLoop

open Transition TimerQueue

/-- The time and interval that each timer was added with, the clock readings at which each was armed
last, and the clock reading of the last tick. -/
structure Ledger where
  added : List (UInt64 × UInt64) := []
  armed : Nat → UInt64
  tick : UInt64

def Ledger.note (k : Ledger) (l : TimerLoop (Rbtree Nat) Ptr) : TimerOp → Ledger
  | .addTimer time interval _ => { k with
      added := k.added ++ [(time, interval)]
      armed := Function.update k.armed l.queue.allocated l.queue.clock }
  | .perTick => { k with tick := l.queue.clock }
  | .handleRead => { k with tick := l.queue.clock }
  | .return_ =>
    match l.pc with
    | .calling p _ _ => { k with armed := Function.update k.armed p l.queue.clock }
    | _ => k
  | _ => k

/-- A new queue whose ledger is empty. -/
def opened (clock : UInt64) : TimerLoop (Rbtree Nat) Ptr × Ledger :=
  (start (Rbtree.create 0) clock, { armed := fun _ => clock, tick := clock })

def Notes (s : TimerLoop (Rbtree Nat) Ptr × Ledger) (op : TimerOp)
    (s' : TimerLoop (Rbtree Nat) Ptr × Ledger) : Prop :=
  Steps s.1 op s'.1 ∧ s'.2 = s.2.note s.1 op

/-- The clock does not go back, each insertion finds a new key, and no timer is cancelled. -/
def Onward (s : TimerLoop (Rbtree Nat) Ptr × Ledger) : TimerOp → Prop
  | .clock now => s.1.queue.clock ≤ now
  | .addTimer time _ _ => NewKey s.1.queue.tree (toLongLong (s.1.queue.clock - s.1.queue.ownEpoch + time))
  | .return_ => ∀ p rest handling timer, s.1.pc = .calling p rest handling →
      s.1.queue.timers p = some timer → 0 < timer.elapse →
      NewKey s.1.queue.tree (toLongLong (s.1.queue.expireOf timer))
  | .cancelTimer _ => False
  | _ => True

variable {s s' : TimerLoop (Rbtree Nat) Ptr × Ledger} {op : TimerOp} {p : Nat} {time interval : UInt64}

theorem Onward.gentle (onward : Onward s op) : Gentle s.1 op := by
  cases op with
  | addTimer => exact onward
  | cancelTimer => exact absurd onward not_false
  | return_ => exact onward
  | clock => trivial
  | perTick => trivial
  | handleRead => trivial
  | visit => trivial

/-- A timer that was added with this time and interval. What is left of the interval and the firings
add up to it; one that is not positive as a signed number never fires. -/
structure Tally (s : TimerLoop (Rbtree Nat) Ptr × Ledger) (p : Nat) (time interval : UInt64) : Prop where
  whole : ∀ timer, s.1.queue.timers p = some timer →
    timer.elapse.toInt + s.1.history.count (.fired p) = toLongLong interval
  more : ∀ timer, s.1.queue.timers p = some timer → 0 < toLongLong interval →
    0 ≤ timer.elapse.toInt ∧ (0 < timer.elapse.toInt ∨ s.1.pc.InCallback p)
  gone : s.1.queue.timers p = none → 0 < toLongLong interval →
    s.1.history.count (.fired p) = toLongLong interval
  never : toLongLong interval ≤ 0 → s.1.history.count (.fired p) = 0
  calls : s.1.pc.InCallback p → 0 < toLongLong interval
  held : p ∈ s.1.pc.batch → (s.1.queue.timers p).isSome
  expiry : ∀ timer, s.1.queue.timers p = some timer → timer.time = time ∧
    timer.expire = s.2.armed p - s.1.queue.ownEpoch + time
  due : ∀ timer, s.1.queue.timers p = some timer → p ∈ s.1.pc.rest →
    timer.expire < s.2.tick - s.1.queue.ownEpoch

theorem epoch_step {l l' : TimerLoop (Rbtree Nat) Ptr} (steps : Steps l op l') :
    l'.queue.ownEpoch = l.queue.ownEpoch := by
  cases step_effect steps with
  | ticked _ run =>
    obtain ⟨_, _, collected⟩ := collect_ok run
    rw [collected.rest]
  | read _ _ run =>
    obtain ⟨_, _, collected⟩ := collect_ok run
    rw [collected.rest]
  | rearmed _ run =>
    obtain ⟨fd, rfl⟩ := rearm_ok run
    rfl
  | _ => rfl

theorem Ledger.note_passes {k : Ledger} {l l' : TimerLoop (Rbtree Nat) Ptr}
    (passes : Passes l p op l') : (k.note l op).armed p = k.armed p ∧
      (p ∈ l'.pc.rest → (k.note l op).tick = k.tick) := by
  have outside := passes.outside
  cases op with
  | addTimer time interval cb => exact ⟨Function.update_of_ne outside .., fun _ => rfl⟩
  | return_ =>
    unfold note
    dsimp only
    split
    · rename_i x rest handling pc
      have other : p ≠ x := fun same => outside ⟨rest, handling, same ▸ pc⟩
      exact ⟨Function.update_of_ne other .., fun _ => rfl⟩
    · exact ⟨rfl, fun _ => rfl⟩
  | perTick => exact ⟨rfl, fun member => absurd member outside⟩
  | handleRead => exact ⟨rfl, fun member => absurd member outside⟩
  | _ => exact ⟨rfl, fun _ => rfl⟩

theorem Ledger.note_tick {k : Ledger} {l : TimerLoop (Rbtree Nat) Ptr} (starts : op.starts) :
    k.note l op = { k with tick := l.queue.clock } := by
  cases op with
  | perTick => rfl
  | handleRead => rfl
  | _ => cases starts

theorem Tally.passes (h : Tally s p time interval) (steps : Notes s op s')
    (passes : Passes s.1 p op s'.1) : Tally s' p time interval := by
  have epoch := epoch_step steps.1
  obtain ⟨armed, tick⟩ := Ledger.note_passes (k := s.2) passes
  rw [← steps.2] at armed tick
  refine ⟨?_, ?_, ?_, ?_, ?_, ?_, ?_, ?_⟩
  · rw [passes.timer, passes.count]
    exact h.whole
  · rw [passes.timer, passes.calling]
    exact h.more
  · rw [passes.timer, passes.count]
    exact h.gone
  · rw [passes.count]
    exact h.never
  · rw [passes.calling]
    exact h.calls
  · rw [TickPc.mem_batch, passes.calling, passes.rest, ← TickPc.mem_batch, passes.timer]
    exact h.held
  · rw [passes.timer, armed, epoch]
    exact h.expiry
  · intro timer here member
    rw [tick member, epoch]
    rw [passes.timer] at here
    rw [passes.rest] at member
    exact h.due timer here member

theorem Tally.deleted {rest : List Nat} {handling : Bool} (gone : s.1.queue.timers p = none)
    (visiting : s.1.pc = .visiting rest handling) (outside : p ∉ rest)
    (whole : 0 < toLongLong interval → s.1.history.count (.fired p) = toLongLong interval)
    (never : toLongLong interval ≤ 0 → s.1.history.count (.fired p) = 0) : Tally s p time interval := by
  have dead {timer : Timer Ptr} (here : s.1.queue.timers p = some timer) : False := by
    cases gone.symm.trans here
  refine ⟨fun _ here => (dead here).elim, fun _ here => (dead here).elim, fun _ => whole, never, ?_, ?_,
    fun _ here => (dead here).elim, fun _ here => (dead here).elim⟩
  · rintro ⟨_, _, calling⟩
    cases visiting.symm.trans calling
  · rw [visiting]
    exact fun member => absurd member outside

/-- The same for a timer that is there. -/
theorem Tally.live {timer : Timer Ptr} (here : s.1.queue.timers p = some timer)
    (whole : timer.elapse.toInt + s.1.history.count (.fired p) = toLongLong interval)
    (more : 0 < toLongLong interval →
      0 ≤ timer.elapse.toInt ∧ (0 < timer.elapse.toInt ∨ s.1.pc.InCallback p))
    (never : toLongLong interval ≤ 0 → s.1.history.count (.fired p) = 0)
    (calls : s.1.pc.InCallback p → 0 < toLongLong interval)
    (expiry : timer.time = time ∧ timer.expire = s.2.armed p - s.1.queue.ownEpoch + time)
    (due : p ∈ s.1.pc.rest → timer.expire < s.2.tick - s.1.queue.ownEpoch) :
    Tally s p time interval := by
  have only {timer' : Timer Ptr} (there : s.1.queue.timers p = some timer') : timer = timer' :=
    Option.some.inj (here.symm.trans there)
  refine ⟨fun _ there => only there ▸ whole, fun _ there => only there ▸ more, fun none => ?_, never,
    calls, fun _ => ?_, fun _ there => only there ▸ expiry, fun _ there => only there ▸ due⟩
  · cases here.symm.trans none
  · rw [here]
    rfl

/-- A timer that fires has a positive interval. -/
theorem Tally.positive {timer : Timer Ptr} (h : Tally s p time interval)
    (here : s.1.queue.timers p = some timer) (more : 0 < timer.elapse) : 0 < toLongLong interval := by
  by_contra none
  have whole := h.whole timer here
  rw [h.never (Int.not_lt.mp none)] at whole
  rw [Int64.lt_iff_toInt_lt] at more
  change 0 < timer.elapse.toInt at more
  omega

/-- A timer that is deleted unfired at its turn has none. -/
theorem Tally.spent {timer : Timer Ptr} {rest : List Nat} {handling : Bool} (h : Tally s p time interval)
    (pc : s.1.pc = .visiting (p :: rest) handling) (here : s.1.queue.timers p = some timer)
    (last : ¬ 0 < timer.elapse) : toLongLong interval ≤ 0 := by
  by_contra positive
  rcases (h.more timer here (Int.not_le.mp positive)).2 with more | ⟨_, _, calling⟩
  · exact last (Int64.lt_iff_toInt_lt.mpr more)
  · cases pc.symm.trans calling

/-- A timer that is deleted in its callback has fired as often as its interval says. -/
theorem Tally.complete {timer : Timer Ptr} (h : Tally s p time interval)
    (here : s.1.queue.timers p = some timer) (calling : s.1.pc.InCallback p)
    (last : ¬ 0 < timer.elapse) : s.1.history.count (.fired p) = toLongLong interval := by
  have left := (h.more timer here (h.calls calling)).1
  have sum := h.whole timer here
  rw [Int64.lt_iff_toInt_lt] at last
  change ¬ 0 < timer.elapse.toInt at last
  omega

/-- A tick visits a timer once. -/
theorem Linking.turn {l : TimerLoop (Rbtree Nat) Ptr} {rest : List Nat} (h : Linking l)
    (batch : l.pc.batch = p :: rest) : p ∉ rest := by
  have distinct := h.distinct
  rw [batch] at distinct
  exact (List.nodup_cons.mp distinct).1

theorem Tally.step (h : Tally s p time interval) (linking : Linking s.1)
    (young : p < s.1.queue.allocated) (onward : Onward s op) (steps : Notes s op s') :
    Tally s' p time interval := by
  have epoch := epoch_step steps.1
  cases step_one steps.1 p with
  | passes passes => exact h.passes steps passes
  | added _ _ _ _ _ _ new => exact absurd young (by rw [new]; exact Nat.lt_irrefl _)
  | taken timer starts idle here due left pc history =>
    have note : s'.2 = _ := steps.2.trans (Ledger.note_tick starts)
    refine .live left ?_ (fun positive => ?_) ?_ (fun calling => absurd calling pc.1) ?_ fun _ => ?_
    · rw [history]
      exact h.whole timer here
    · refine (h.more timer here positive).imp_right fun more => .inl (more.resolve_right ?_)
      rintro ⟨_, _, calling⟩
      cases idle.symm.trans calling
    · rw [history]
      exact h.never
    · rw [note, epoch]
      exact h.expiry timer here
    · rw [note, epoch]
      exact due
  | fired timer rest handling visits pc here more left calling history =>
    subst visits
    have positive := h.positive here more
    have count : s'.1.history.count (.fired p) = s.1.history.count (.fired p) + 1 := by
      rw [history, List.count_append, List.count_singleton_self]
    have fewer : (timer.elapse - 1).toInt = timer.elapse.toInt - 1 := toInt_pred more
    refine .live left ?_ (fun _ => ?_) (fun none => absurd positive (Int.not_lt.mpr none))
      (fun _ => positive) ?_ fun member => ?_
    · rw [count, ← h.whole timer here]
      dsimp only
      omega
    · rw [Int64.lt_iff_toInt_lt] at more
      dsimp only
      rw [fewer]
      exact ⟨Int.le_sub_one_of_lt more, .inr ⟨rest, handling, calling⟩⟩
    · rw [steps.2, epoch]
      exact h.expiry timer here
    · rw [calling] at member
      rw [steps.2, epoch]
      exact h.due timer here (by rw [pc]; exact List.mem_cons_of_mem p member)
  | dropped timer rest handling visits pc here last left visiting history =>
    have outside : p ∉ rest := linking.turn (by rw [pc]; rfl)
    refine .deleted left visiting outside
      (fun positive => absurd positive (Int.not_lt.mpr (h.spent pc here last))) ?_
    rw [history]
    exact h.never
  | rearmed timer rest handling n returns pc here more left visiting history =>
    subst returns
    have outside : p ∉ rest := linking.turn (by rw [pc]; rfl)
    have armed : s'.2.armed p = s.1.queue.clock := by
      rw [steps.2]
      unfold Ledger.note
      rw [pc]
      exact Function.update_self ..
    rw [Int64.lt_iff_toInt_lt] at more
    refine .live left ?_ (fun _ => ⟨Int.le_of_lt more, .inl more⟩) ?_ ?_ ?_ fun member => ?_
    · rw [history]
      exact h.whole timer here
    · rw [history]
      exact h.never
    · rintro ⟨_, _, calling⟩
      cases visiting.symm.trans calling
    · obtain ⟨same, _⟩ := h.expiry timer here
      rw [armed, epoch, ← same]
      exact ⟨rfl, rfl⟩
    · rw [visiting] at member
      exact absurd member outside
  | ended timer rest handling returns pc here last left visiting history =>
    have outside : p ∉ rest := linking.turn (by rw [pc]; rfl)
    have calling : s.1.pc.InCallback p := ⟨rest, handling, pc⟩
    refine .deleted left visiting outside ?_ fun none => absurd (h.calls calling) (Int.not_lt.mpr none)
    rw [history]
    exact fun _ => h.complete here calling last
  | cancelled id timer cancels =>
    subst cancels
    exact absurd onward not_false

/-- A timer that has just been added. -/
theorem Tally.new {id : Int} {cb : Nat} {n : Ptr} {expire : UInt64}
    (timer : s.1.queue.timers p =
      some { newTimer (N := Ptr) id time interval cb with expire, attach := some n })
    (count : s.1.history.count (.fired p) = 0) (outside : p ∉ s.1.pc.batch)
    (armed : expire = s.2.armed p - s.1.queue.ownEpoch + time) : Tally s p time interval := by
  rw [TickPc.mem_batch, not_or] at outside
  refine .live timer ?_ (fun positive => ⟨Int.le_of_lt positive, .inl positive⟩) (fun _ => count)
    (fun calling => absurd calling outside.1) ⟨rfl, armed⟩ fun member => absurd member outside.2
  rw [count]
  exact Int.add_zero _

/-- What such runs keep. -/
structure Counting (s : TimerLoop (Rbtree Nat) Ptr × Ledger) : Prop where
  linking : Linking s.1
  added : s.2.added.length = s.1.queue.allocated
  unborn : ∀ p, s.1.queue.allocated ≤ p → s.1.history.count (.fired p) = 0
  tally : ∀ p time interval, s.2.added[p]? = some (time, interval) → Tally s p time interval
  clock : s.1.queue.ownEpoch ≤ s.1.queue.clock
  armed : ∀ p, s.1.queue.ownEpoch ≤ s.2.armed p
  tick : s.1.queue.ownEpoch ≤ s.2.tick

theorem Counting.young (h : Counting s) (here : s.2.added[p]? = some (time, interval)) :
    p < s.1.queue.allocated := by
  rw [← h.added]
  exact (List.getElem?_eq_some_iff.mp here).1

theorem clock_step {l l' : TimerLoop (Rbtree Nat) Ptr} (steps : Steps l op l') :
    l'.queue.clock = l.queue.clock ∨ op = .clock l'.queue.clock := by
  cases step_effect steps with
  | clock now => exact .inr rfl
  | ticked _ run =>
    obtain ⟨_, _, collected⟩ := collect_ok run
    rw [collected.rest]
    exact .inl rfl
  | read _ _ run =>
    obtain ⟨_, _, collected⟩ := collect_ok run
    rw [collected.rest]
    exact .inl rfl
  | rearmed _ run =>
    obtain ⟨fd, rfl⟩ := rearm_ok run
    exact .inl rfl
  | _ => exact .inl rfl

/-- The ledger holds readings of the clock. -/
theorem Ledger.note_bounds {k : Ledger} {l : TimerLoop (Rbtree Nat) Ptr} {epoch : UInt64}
    (clock : epoch ≤ l.queue.clock) (armed : ∀ p, epoch ≤ k.armed p) (tick : epoch ≤ k.tick) :
    (∀ p, epoch ≤ (k.note l op).armed p) ∧ epoch ≤ (k.note l op).tick := by
  have written (x p : Nat) : epoch ≤ Function.update k.armed x l.queue.clock p := by
    by_cases same : p = x
    · rw [same, Function.update_self]
      exact clock
    · rw [Function.update_of_ne same]
      exact armed p
  cases op with
  | addTimer time interval cb => exact ⟨written _, tick⟩
  | perTick => exact ⟨armed, clock⟩
  | handleRead => exact ⟨armed, clock⟩
  | return_ =>
    unfold note
    dsimp only
    split
    · exact ⟨written _, tick⟩
    · exact ⟨armed, tick⟩
  | _ => exact ⟨armed, tick⟩

theorem Ledger.note_added {k : Ledger} {l : TimerLoop (Rbtree Nat) Ptr} :
    (k.note l op).added = k.added ++ op.additions := by
  cases op with
  | addTimer time interval cb => rfl
  | return_ =>
    unfold note
    dsimp only
    split
    · exact (List.append_nil _).symm
    · exact (List.append_nil _).symm
  | _ => exact (List.append_nil _).symm

/-- The timer of an addition. -/
theorem Counting.new {cb : Nat} (h : Counting s) (steps : Notes s (.addTimer time interval cb) s') :
    Tally s' s.1.queue.allocated time interval := by
  have unborn := h.unborn s.1.queue.allocated (Nat.le_refl _)
  have epoch := epoch_step steps.1
  have young (member : s.1.queue.allocated ∈ s.1.pc.batch) : False :=
    Nat.lt_irrefl _ (h.linking.young _ member)
  have armed : s'.2.armed s.1.queue.allocated = s.1.queue.clock := by
    rw [steps.2]
    exact Function.update_self ..
  obtain ⟨id, n, pc, timer, count⟩ := step_added steps.1
  refine .new timer (count.trans unborn) ?_ ?_
  · rw [pc]
    exact young
  · rw [armed, epoch]

theorem opened_counting (clock : UInt64) : Counting (opened clock) := by
  refine ⟨start_linking clock, rfl, fun _ _ => rfl, ?_, UInt64.le_refl _, fun _ => UInt64.le_refl _,
    UInt64.le_refl _⟩
  intro p time interval here
  cases here

theorem Counting.step (h : Counting s) (onward : Onward s op) (steps : Notes s op s') : Counting s' := by
  have linking := h.linking.step onward.gentle steps.1
  have unborn (p : Nat) (later : s'.1.queue.allocated ≤ p) : s'.1.history.count (.fired p) = 0 := by
    have silent (x : Nat) (late : s.1.queue.allocated ≤ x) := fired_iff_count.mpr (h.unborn x late)
    exact fired_iff_count.mp (unborn_step h.linking.refs steps.1 silent later)
  have epoch := epoch_step steps.1
  have clock : s'.1.queue.ownEpoch ≤ s'.1.queue.clock := by
    rw [epoch]
    rcases clock_step steps.1 with same | moved
    · rw [same]
      exact h.clock
    · subst moved
      exact UInt64.le_trans h.clock onward
  have bounds : (∀ p, s.1.queue.ownEpoch ≤ (s.2.note s.1 op).armed p) ∧
      s.1.queue.ownEpoch ≤ (s.2.note s.1 op).tick := Ledger.note_bounds h.clock h.armed h.tick
  rw [← steps.2, ← epoch] at bounds
  have added : s'.2.added = s.2.added ++ op.additions := by
    rw [steps.2, Ledger.note_added]
  refine ⟨linking, ?_, unborn, fun p time interval here => ?_, clock, bounds.1, bounds.2⟩
  · rw [added, List.length_append, h.added, allocated_step steps.1, ← op.additions_intervals,
      List.length_map]
  · rw [added] at here
    by_cases old : p < s.2.added.length
    · rw [List.getElem?_append_left old] at here
      exact (h.tally p time interval here).step h.linking (h.young here) onward steps
    · rw [List.getElem?_append_right (Nat.not_lt.mp old)] at here
      obtain ⟨cb, rfl, new⟩ := TimerOp.additions_get here
      obtain rfl : p = s.1.queue.allocated := by
        rw [← h.added]
        omega
      exact h.new steps

/-- An expiry lies ahead of the reading at which the timer was armed by its time, unless their sum
passes 2^64. -/
theorem expired_iff {armed tick epoch : UInt64} (before : epoch ≤ armed) (before' : epoch ≤ tick)
    (due : armed - epoch + time < tick - epoch) : armed.toNat + time.toNat < tick.toNat ↔
      armed.toNat - epoch.toNat + time.toNat < 2 ^ 64 := by
  rw [UInt64.lt_iff_toNat_lt, UInt64.toNat_add, UInt64.toNat_sub_of_le _ _ before,
    UInt64.toNat_sub_of_le _ _ before'] at due
  rw [UInt64.le_iff_toNat_le] at before before'
  have bound := tick.toNat_lt
  constructor
  · intro later
    omega
  · intro inside
    rw [Nat.mod_eq_of_lt inside] at due
    omega

section
variable (h : Counting s) (here : s.2.added[p]? = some (time, interval))
  (positive : 0 < interval.toNat) (small : interval.toNat < 2 ^ 63)
include h here positive small

theorem Counting.between (idle : s.1.pc = .idle) :
    (s.1.history.count (.fired p) < interval.toNat ∧ Stores s.1.queue.tree p ∧ ∃ timer,
      s.1.queue.timers p = some timer ∧
      timer.elapse.toInt = interval.toNat - s.1.history.count (.fired p)) ∨
    s.1.history.count (.fired p) = interval.toNat ∧ s.1.queue.timers p = none := by
  have tally := h.tally p time interval here
  have signed : toLongLong interval = interval.toNat := toLongLong_small small
  have counts : 0 < toLongLong interval := by
    rw [signed]
    exact Int.natCast_pos.mpr positive
  cases there : s.1.queue.timers p with
  | none =>
    have whole := tally.gone there counts
    rw [signed] at whole
    exact .inr ⟨Int.ofNat_inj.mp whole, rfl⟩
  | some timer =>
    have whole := tally.whole timer there
    have more := (tally.more timer there counts).2.resolve_right (by
      rintro ⟨_, _, calling⟩
      cases idle.symm.trans calling)
    obtain ⟨nodes, links⟩ := h.linking.links
    rw [idle] at links
    obtain ⟨n, member⟩ := links.pending p timer there List.not_mem_nil
    refine .inl ⟨by omega, ?_, timer, rfl, by omega⟩
    exact (stores_iff links.search.weaken).mpr (List.mem_map_of_mem (f := fun x => x.2.val) member)

theorem Counting.deletion (onward : Onward s op) (steps : Notes s op s')
    (live : (s.1.queue.timers p).isSome) (gone : s'.1.queue.timers p = none) :
    op = .return_ ∧ s.1.pc.InCallback p ∧ s.1.history.count (.fired p) = interval.toNat := by
  have tally := h.tally p time interval here
  have signed : toLongLong interval = interval.toNat := toLongLong_small small
  have counts : 0 < toLongLong interval := by
    rw [signed]
    exact Int.natCast_pos.mpr positive
  cases step_one steps.1 p with
  | passes passes =>
    rw [← passes.timer, gone] at live
    cases live
  | added _ _ _ _ _ _ _ _ timer => cases gone.symm.trans timer
  | taken _ _ _ _ _ left => cases gone.symm.trans left
  | fired _ _ _ _ _ _ _ left => cases gone.symm.trans left
  | rearmed _ _ _ _ _ _ _ _ left => cases gone.symm.trans left
  | dropped timer rest handling visits pc there last =>
    exact absurd counts (Int.not_lt.mpr (tally.spent pc there last))
  | ended timer rest handling returns pc there last =>
    have whole := tally.complete there ⟨rest, handling, pc⟩ last
    rw [signed] at whole
    exact ⟨returns, ⟨rest, handling, pc⟩, Int.ofNat_inj.mp whole⟩
  | cancelled id timer cancels =>
    subst cancels
    exact absurd onward not_false

end

/-- The clock reading of a tick that fires a timer. -/
theorem Counting.firing (h : Counting s) (here : s.2.added[p]? = some (time, interval))
    (steps : Notes s op s') (fires : s'.1.history = s.1.history ++ [.fired p]) :
    (s.2.armed p).toNat + time.toNat < s.2.tick.toNat ↔
      (s.2.armed p).toNat - s.1.queue.ownEpoch.toNat + time.toNat < 2 ^ 64 := by
  have tally := h.tally p time interval here
  have more : s'.1.history.count (.fired p) ≠ s.1.history.count (.fired p) := by
    rw [fires, List.count_append, List.count_singleton_self]
    exact Nat.succ_ne_self _
  cases step_one steps.1 p with
  | fired timer rest handling visits pc there =>
    obtain ⟨_, expire⟩ := tally.expiry timer there
    have due := tally.due timer there (by rw [pc]; exact List.mem_cons_self)
    rw [expire] at due
    exact expired_iff (h.armed p) h.tick due
  | passes passes => exact absurd passes.count more
  | added _ _ _ _ _ _ _ _ _ count => exact absurd count more
  | taken _ _ _ _ _ _ _ history => exact absurd (by rw [history]) more
  | dropped _ _ _ _ _ _ _ _ _ history => exact absurd (by rw [history]) more
  | rearmed _ _ _ _ _ _ _ _ _ _ history => exact absurd (by rw [history]) more
  | ended _ _ _ _ _ _ _ _ _ history => exact absurd (by rw [history]) more
  | cancelled _ _ _ _ _ _ _ count => exact absurd count more

/-- In every run of additions, ticks and re-arming in which each insertion finds a new key and the clock
does not go back, a timer with an interval `n` from 1 to 2^63 - 1: between the ticks it has fired fewer
than `n` times, has the rest left and is in the tree, or it has fired `n` times and is deleted. It is
deleted by the step behind the callback of its `n`-th firing, and no tick holds or deletes it again. At
each firing the tick has read a clock that is past the reading at which the timer was armed by more than
its time, unless that reading since the epoch and the time add up to 2^64 or more. -/
theorem counted_fires (clock : UInt64) (s : TimerLoop (Rbtree Nat) Ptr × Ledger)
    (run : Reaches Notes Onward (opened clock) s) (p : Nat) (time interval : UInt64)
    (added : s.2.added[p]? = some (time, interval)) (positive : 0 < interval.toNat)
    (small : interval.toNat < 2 ^ 63) :
    (s.1.pc = .idle →
      (s.1.history.count (.fired p) < interval.toNat ∧ Stores s.1.queue.tree p ∧ ∃ timer,
        s.1.queue.timers p = some timer ∧
        timer.elapse.toInt = interval.toNat - s.1.history.count (.fired p)) ∨
      s.1.history.count (.fired p) = interval.toNat ∧ s.1.queue.timers p = none) ∧
    (∀ op s', Onward s op → Notes s op s' → (s.1.queue.timers p).isSome → s'.1.queue.timers p = none →
      op = .return_ ∧ s.1.pc.InCallback p ∧ s.1.history.count (.fired p) = interval.toNat) ∧
    (s.1.queue.timers p = none → p ∉ s.1.pc.batch ∧
      ∀ s', Reaches Notes Onward s s' → s'.1.queue.timers p = none) ∧
    ∀ op s', Onward s op → Notes s op s' → s'.1.history = s.1.history ++ [.fired p] →
      ((s.2.armed p).toNat + time.toNat < s.2.tick.toNat ↔
        (s.2.armed p).toNat - s.1.queue.ownEpoch.toNat + time.toNat < 2 ^ 64) := by
  have h : Counting s := run.invariant (opened_counting clock) fun _ _ _ h onward taken =>
    h.step onward taken
  refine ⟨h.between added positive small, ?_, fun gone => ⟨fun member => ?_, fun s' rest => ?_⟩, ?_⟩
  · exact fun _ _ onward taken => h.deletion added positive small onward taken
  · have live := (h.tally p time interval added).held member
    rw [gone] at live
    cases live
  · have first : Gone p s.1 := ⟨h.young added, gone⟩
    have last : Gone p s'.1 := by
      induction rest with
      | start => exact first
      | step _ _ taken ih => exact ih.step taken.1
    exact last.deleted
  · exact fun _ _ _ taken fires => h.firing added taken fires

/-- A check of `Onward`. -/
def onwardly (s : TimerLoop (Rbtree Nat) Ptr × Ledger) (op : TimerOp) : Bool :=
  gently s.1 op && match op with
  | .clock now => s.1.queue.clock ≤ now
  | .cancelTimer _ => false
  | _ => true

theorem onwardly_sound (s : TimerLoop (Rbtree Nat) Ptr × Ledger) (op : TimerOp)
    (check : onwardly s op = true) : Onward s op := by
  obtain ⟨gentle, check⟩ := (Bool.and_eq_true _ _).mp check
  have gentle := gently_sound s.1 op gentle
  cases op with
  | clock now => exact of_decide_eq_true (p := s.1.queue.clock ≤ now) check
  | addTimer => exact gentle
  | return_ => exact gentle
  | cancelTimer => cases check
  | perTick => trivial
  | handleRead => trivial
  | visit => trivial

/-- A step function for `Notes`. -/
def nextNoted : TimerLoop (Rbtree Nat) Ptr × Ledger → TimerOp →
    Option (TimerLoop (Rbtree Nat) Ptr × Ledger) :=
  keeping next fun l op k => k.note l op

theorem reaches_onward {s s' : TimerLoop (Rbtree Nat) Ptr × Ledger} (ops : List TimerOp)
    (run : ops.foldlM (fun s op => if onwardly s op then nextNoted s op else none) s = some s') :
    Reaches Notes Onward s s' ∧ ops.foldlM next s.1 = some s'.1 := by
  have reached := Reaches.of_checked nextNoted onwardly onwardly_sound ops run
  have taken := foldlM_of_checked nextNoted onwardly ops run
  exact ⟨reached.mono_steps fun _ _ _ => keeping_eq_some.mp, foldlM_of_keeping next _ ops taken⟩

/-- Of two timers the first fires twice, is armed again in between, and is deleted behind its second
callback. The other one stays in the tree. -/
theorem counted_fires_twice : ∃ s s₁ s₂ : TimerLoop (Rbtree Nat) Ptr × Ledger,
    [.addTimer 10 2 7, .addTimer 500 1 8, .clock 1011, .perTick, .visit, .return_, .visit, .clock 1030,
      .perTick].foldlM next (opened 1000).1 = some s.1 ∧ Notes s .visit s₁ ∧ Notes s₁ .return_ s₂ ∧
    s₁.1.history = s.1.history ++ [.fired 0] ∧
    (s.2.armed 0).toNat + 10 < s.2.tick.toNat ∧
    (s₁.1.queue.timers 0).isSome ∧ s₁.1.history.count (.fired 0) = 2 ∧ s₂.1.queue.timers 0 = none ∧
    0 ∉ s₂.1.pc.batch ∧ ∃ s₃, s₂.1.next .visit = some s₃ ∧ Stores s₃.queue.tree 1 := by
  have made : ([.addTimer 10 2 7, .addTimer 500 1 8, .clock 1011, .perTick, .visit, .return_, .visit,
      .clock 1030, .perTick].foldlM (fun s op => if onwardly s op then nextNoted s op else none)
        (opened 1000)).any fun s => s.2.added = [(10, 2), (500, 1)] ∧
      (s.2.armed 0).toNat - s.1.queue.ownEpoch.toNat + 10 < 2 ^ 64 ∧
      onwardly s .visit ∧ (nextNoted s .visit).any fun s₁ => s₁.2.added = [(10, 2), (500, 1)] ∧
        s₁.1.history = s.1.history ++ [.fired 0] ∧
        (s₁.1.queue.timers 0).isSome ∧
        onwardly s₁ .return_ ∧ (nextNoted s₁ .return_).any fun s₂ => s₂.2.added = [(10, 2), (500, 1)] ∧
          (s₂.1.queue.timers 0).isNone ∧
          onwardly s₂ .visit ∧ (nextNoted s₂ .visit).any fun s₃ => s₃.2.added = [(10, 2), (500, 1)] ∧
            s₃.1.pc = .idle ∧ s₃.1.history = [.added 0, .added 1, .fired 0, .fired 0] := by
    decide +kernel
  obtain ⟨s, run, test⟩ := (Option.any_eq_true _ _).mp made
  obtain ⟨added, bound, goes, test⟩ := of_decide_eq_true test
  obtain ⟨s₁, fires, test⟩ := (Option.any_eq_true _ _).mp test
  obtain ⟨added₁, history, live, goes₁, test⟩ := of_decide_eq_true test
  obtain ⟨s₂, ends, test⟩ := (Option.any_eq_true _ _).mp test
  obtain ⟨added₂, gone, goes₂, test⟩ := of_decide_eq_true test
  obtain ⟨s₃, rests, test⟩ := (Option.any_eq_true _ _).mp test
  obtain ⟨added₃, idle, events⟩ := of_decide_eq_true test
  obtain ⟨before, ticked⟩ := reaches_onward _ run
  have onward := onwardly_sound _ _ goes
  have onward₁ := onwardly_sound _ _ goes₁
  have onward₂ := onwardly_sound _ _ goes₂
  have step₁ : Notes s .visit s₁ := keeping_eq_some.mp fires
  have step₂ : Notes s₁ .return_ s₂ := keeping_eq_some.mp ends
  have step₃ : Notes s₂ .visit s₃ := keeping_eq_some.mp rests
  have run₁ := before.step onward step₁
  have run₂ := run₁.step onward₁ step₂
  have none : s₂.1.queue.timers 0 = none := Option.isNone_iff_eq_none.mp gone
  obtain ⟨_, _, _, past⟩ := counted_fires 1000 s before 0 10 2 (by rw [added]; rfl) (by decide) (by decide)
  obtain ⟨_, deletes, _⟩ :=
    counted_fires 1000 s₁ run₁ 0 10 2 (by rw [added₁]; rfl) (by decide) (by decide)
  obtain ⟨_, _, leaves, _⟩ :=
    counted_fires 1000 s₂ run₂ 0 10 2 (by rw [added₂]; rfl) (by decide) (by decide)
  obtain ⟨rest, _⟩ := counted_fires 1000 s₃ (run₂.step onward₂ step₃) 1 500 1 (by rw [added₃]; rfl)
    (by decide) (by decide)
  refine ⟨s, s₁, s₂, ticked, step₁, step₂, history, (past _ s₁ onward step₁ history).mpr bound, live,
    (deletes _ s₂ onward₁ step₂ live none).2.2, none, (leaves none).1, s₃.1, step₃.1, ?_⟩
  rcases rest idle with ⟨_, stored, _⟩ | ⟨fired, _⟩
  · exact stored
  · rw [events] at fired
    cases fired

/-- A timer with the interval 2^63 is deleted at its expiry and never fires; and one with the time
2^64 - 1, added one tick behind the epoch, fires at the next tick of the clock. -/
theorem counted_misses :
    (∃ l : TimerLoop (Rbtree Nat) Ptr, [.addTimer 10 9223372036854775808 7, .clock 1011, .perTick,
        .visit, .visit].foldlM next (start (Rbtree.create 0) 1000) = some l ∧ l.pc = .idle ∧
      l.history.count (.fired 0) = 0 ∧ (l.queue.timers 0).isNone) ∧
    ∃ l : TimerLoop (Rbtree Nat) Ptr, [.clock 1001, .addTimer 18446744073709551615 1 7, .clock 1002,
        .perTick, .visit].foldlM next (start (Rbtree.create 0) 1000) = some l ∧
      l.history = [.added 0, .fired 0] ∧
      (l.queue.timers 0).any (fun timer => timer.expire = 0) := by
  have huge : ([.addTimer 10 9223372036854775808 7, .clock 1011, .perTick, .visit, .visit].foldlM next
      (start (Rbtree.create 0) 1000)).any fun l =>
        l.pc = .idle ∧ l.history.count (.fired 0) = 0 ∧ (l.queue.timers 0).isNone := by
    decide +kernel
  have wraps : ([.clock 1001, .addTimer 18446744073709551615 1 7, .clock 1002, .perTick,
      .visit].foldlM next (start (Rbtree.create 0) 1000)).any fun l => l.history = [.added 0, .fired 0] ∧
        (l.queue.timers 0).any fun timer => timer.expire = 0 := by
    decide +kernel
  constructor
  · obtain ⟨l, run, test⟩ := (Option.any_eq_true _ _).mp huge
    exact ⟨l, run, of_decide_eq_true test⟩
  · obtain ⟨l, run, test⟩ := (Option.any_eq_true _ _).mp wraps
    exact ⟨l, run, of_decide_eq_true test⟩

end TimerLoop
end Yamq
