import Yamq.Timer.Links
import Yamq.Timer.OneTimer

/-! Timers that expire at the same tick: the tree takes only the first of them. -/
namespace Yamq

open RedBlack

/-- The intervals of the timers that an operation adds. -/
def TimerOp.intervals : TimerOp → List UInt64
  | .addTimer _ interval _ => [interval]
  | .clock _ => []
  | .cancelTimer _ => []
  | .perTick => []
  | .handleRead => []
  | .visit => []
  | .return_ => []

theorem TimerOp.intervals_get {op : TimerOp} {interval : UInt64} {i : Nat}
    (here : op.intervals[i]? = some interval) : ∃ time cb, op = .addTimer time interval cb ∧ i = 0 := by
  cases op with
  | addTimer time interval' cb =>
    cases i with
    | zero =>
      cases here
      exact ⟨time, cb, rfl, rfl⟩
    | succ i => cases here
  | _ => cases here

namespace TimerQueue

variable {q q' : TimerQueue (Rbtree Nat) Ptr} {held : List Nat} {nodes : List (Nat × Entry Nat)}
  {p : Nat} {timer : Timer Ptr}

/-- A due timer stands behind one that is not due, whose expiry from 2^63 on became a negative key. -/
def Blocked (q : TimerQueue (Rbtree Nat) Ptr) : Prop :=
  ∃ p timer x first, Stores q.tree p ∧ q.timers p = some timer ∧ Stores q.tree x ∧
    q.timers x = some first ∧ timer.expire < q.clock - q.ownEpoch ∧ timer.expire.toNat < 2 ^ 63 ∧
    ¬ first.expire < q.clock - q.ownEpoch ∧ 2 ^ 63 ≤ first.expire.toNat

/-- A tick takes all due timers exactly when none of them is blocked. -/
theorem Keyed.takes_all_iff (h : Keyed q nodes) {batch : List Nat}
    (run : q.expiredTimers = .ok (q', batch)) :
    (∀ p timer, Stores q.tree p → q.timers p = some timer → timer.expire < q.clock - q.ownEpoch →
      p ∈ batch) ↔ ¬ Blocked q := by
  obtain ⟨q₁, front, back, rfl, collects, _, takes, stops⟩ := h.collect (q.clock - q.ownEpoch)
    h.search.weaken.length_lt []
  cases collects.symm.trans run
  have ordered := h.search.ordered
  rw [keys_append, List.pairwise_append] at ordered
  have key {y : Nat × Entry Nat} {timer : Timer Ptr} (member : y ∈ front ++ back)
      (here : q.timers y.2.val = some timer) : y.2.key = toLongLong timer.expire := by
    obtain ⟨timer', here', key⟩ := h.timer y member
    cases here.symm.trans here'
    exact key
  constructor
  · rintro all ⟨p, timer, x, first, storedP, here, storedX, there, due, small, undue, large⟩
    have member := all p timer storedP here due
    rw [List.nil_append, List.mem_map] at member
    obtain ⟨y, inFront, rfl⟩ := member
    rw [stores_iff h.search.weaken, List.mem_map] at storedX
    obtain ⟨z, member, rfl⟩ := storedX
    rcases List.mem_append.mp member with inFront' | inBack
    · exact undue (takes z first inFront' there)
    · have before := ordered.2.2 _ (List.mem_map_of_mem (f := fun x => x.2.key) inFront) _
        (List.mem_map_of_mem (f := fun x => x.2.key) inBack)
      rw [key (List.mem_append_left _ inFront) here, key member there] at before
      have bound := first.expire.toNat_lt
      rcases toLongLong_cases timer.expire with ⟨_, value⟩ | ⟨_, value⟩ <;>
        rcases toLongLong_cases first.expire with ⟨_, value'⟩ | ⟨_, value'⟩ <;> omega
  · intro free p timer stored here due
    rw [stores_iff h.search.weaken, List.mem_map] at stored
    obtain ⟨y, member, rfl⟩ := stored
    rcases List.mem_append.mp member with inFront | inBack
    · exact List.mem_map_of_mem (f := fun x => x.2.val) inFront
    · refine absurd ?_ free
      cases back with
      | nil => cases inBack
      | cons z rest =>
        have memberZ : z ∈ front ++ z :: rest := by simp
        obtain ⟨first, there, keyZ⟩ := h.timer z memberZ
        have undue := stops z rest first rfl there
        have before : z.2.key ≤ y.2.key := by
          rw [keys_cons, List.pairwise_cons] at ordered
          rcases List.mem_cons.mp inBack with rfl | later
          · exact le_rfl
          · exact (ordered.2.1.1 _ (List.mem_map_of_mem (f := fun x => x.2.key) later)).le
        rw [key member here, keyZ] at before
        have sooner : timer.expire.toNat < first.expire.toNat := by
          rw [UInt64.lt_iff_toNat_lt] at due undue
          omega
        have bound := first.expire.toNat_lt
        have apart : timer.expire.toNat < 2 ^ 63 ∧ 2 ^ 63 ≤ first.expire.toNat := by
          rcases toLongLong_cases timer.expire with ⟨_, value⟩ | ⟨_, value⟩ <;>
            rcases toLongLong_cases first.expire with ⟨_, value'⟩ | ⟨_, value'⟩ <;> omega
        exact ⟨y.2.val, timer, z.2.val, first, (stores_iff h.search.weaken).mpr
          (List.mem_map_of_mem (f := fun x => x.2.val) member), here,
          (stores_iff h.search.weaken).mpr (List.mem_map_of_mem (f := fun x => x.2.val) memberZ),
          there, due, apart.1, undue, apart.2⟩

/-- A held timer gets into the tree exactly when its key is new. -/
theorem Links.stores_iff_new (h : Links q (p :: held) nodes) {tree : Rbtree Nat} {n : Ptr} {key : Int}
    (inserted : TimerTree.insertTimer q.tree key p = .ok (tree, n)) :
    Stores tree p ↔ NewKey q.tree key := by
  have inserts : q.tree.insert key p = .ok (tree, n) := inserted
  have outside : ¬ Stores q.tree p := by
    rw [stores_iff h.search.weaken, List.mem_map]
    rintro ⟨x, member, rfl⟩
    exact (h.stored x.1 x.2 member).1 List.mem_cons_self
  rw [newKey_iff h.search.weaken]
  by_cases new : key ∈ keys Entry.key nodes
  · refine iff_of_false (fun stored => outside ?_) (not_not.mpr new)
    obtain ⟨tree', run, search⟩ := h.search.insert_known p new
    cases run.symm.trans inserts
    rwa [stores_iff h.search.weaken, ← stores_iff search.weaken]
  · obtain ⟨tree', front, back, run, _, search, _⟩ := h.search.insert p new
    cases run.symm.trans inserts
    refine iff_of_true ?_ new
    rw [stores_iff search.weaken, List.map_append, List.map_cons]
    exact List.mem_append_right _ List.mem_cons_self

end TimerQueue

namespace TimerLoop

open Transition TimerQueue

/-- A step, with the intervals of the timers added so far. -/
def Counts (s : TimerLoop (Rbtree Nat) Ptr × List UInt64) (op : TimerOp)
    (s' : TimerLoop (Rbtree Nat) Ptr × List UInt64) : Prop :=
  Steps s.1 op s'.1 ∧ s'.2 = s.2 ++ op.intervals

/-- Timers have positive intervals below 2^63 and are not cancelled, each insertion finds a new key,
and no tick finds a due timer blocked. -/
def Apart (s : TimerLoop (Rbtree Nat) Ptr × List UInt64) : TimerOp → Prop
  | .addTimer time interval _ => 0 < interval.toNat ∧ interval.toNat < 2 ^ 63 ∧
      NewKey s.1.queue.tree (toLongLong (s.1.queue.clock - s.1.queue.ownEpoch + time))
  | .return_ => ∀ p rest handling timer, s.1.pc = .calling p rest handling →
      s.1.queue.timers p = some timer → 0 < timer.elapse →
      NewKey s.1.queue.tree (toLongLong (s.1.queue.expireOf timer))
  | .perTick => ¬ Blocked s.1.queue
  | .handleRead => ¬ Blocked s.1.queue
  | .cancelTimer _ => False
  | _ => True

/-- A timer with its number of turns left. It may be none only in the last callback. -/
def Counted (interval : UInt64) (fired : Nat) (calling : Prop) : Option (Timer Ptr) → Prop
  | none => interval.toNat ≤ fired
  | some timer => timer.elapse.toInt + fired = interval.toNat ∧ (0 < timer.elapse ∨ calling)

structure Owing (s : TimerLoop (Rbtree Nat) Ptr × List UInt64) : Prop where
  linking : Linking s.1
  added : s.2.length = s.1.queue.allocated
  known : ∀ p, .fired p ∈ s.1.history → p < s.1.queue.allocated
  counted : ∀ p interval, s.2[p]? = some interval → Counted interval (s.1.history.count (.fired p))
    (∃ rest handling, s.1.pc = .calling p rest handling) (s.1.queue.timers p)

theorem Counted.still {interval : UInt64} {fired : Nat} {calling calling' : Prop}
    {t t' : Option (Timer Ptr)} (h : Counted interval fired calling t)
    (same : t'.map Timer.elapse = t.map Timer.elapse) (calls : calling → calling') :
    Counted interval fired calling' t' := by
  cases t with
  | none =>
    rw [Option.map_none, Option.map_eq_none_iff] at same
    rwa [same]
  | some timer =>
    obtain ⟨timer', rfl, elapse⟩ := Option.map_eq_some_iff.mp same
    rw [Counted, elapse]
    exact ⟨h.1, h.2.imp_right calls⟩

theorem toInt_pred {n : Int64} (positive : 0 < n) : (n - 1).toInt = n.toInt - 1 := by
  have bound : (1 : Int64) ≤ n := by
    rw [Int64.lt_iff_toInt_lt] at positive
    rw [Int64.le_iff_toInt_le]
    exact positive
  exact Int64.toInt_sub_of_le n 1 (by decide) bound

variable {s s' : TimerLoop (Rbtree Nat) Ptr × List UInt64} {op : TimerOp}

theorem allocated_step {l l' : TimerLoop (Rbtree Nat) Ptr} (steps : Steps l op l') :
    l'.queue.allocated = l.queue.allocated + op.intervals.length := by
  cases step_effect steps with
  | ticked _ run =>
    obtain ⟨_, _, collected⟩ := collect_ok run
    exact collected.same.allocated
  | read _ _ run =>
    obtain ⟨_, _, collected⟩ := collect_ok run
    exact collected.same.allocated
  | rearmed _ run =>
    obtain ⟨fd, rfl⟩ := rearm_ok run
    rfl
  | _ => rfl

theorem Apart.gentle (apart : Apart s op) : Gentle s.1 op := by
  cases op with
  | addTimer => exact apart.2.2
  | cancelTimer => exact absurd apart not_false
  | return_ => exact apart
  | clock => trivial
  | perTick => trivial
  | handleRead => trivial
  | visit => trivial

/-- A timer that a tick is about to visit has a turn left. -/
theorem Owing.positive (h : Owing s) {p : Nat} {rest : List Nat} {handling : Bool} {timer : Timer Ptr}
    (pc : s.1.pc = .visiting (p :: rest) handling) (here : s.1.queue.timers p = some timer) :
    0 < timer.elapse := by
  have young := h.linking.young p (by rw [pc]; exact List.mem_cons_self)
  rw [← h.added] at young
  have count := h.counted p _ (List.getElem?_eq_getElem young)
  rw [here] at count
  rcases count.2 with more | ⟨rest', handling', calling⟩
  · exact more
  · cases pc.symm.trans calling

/-- What a step does to a timer that is counted. -/
theorem Owing.counted_step (h : Owing s) (apart : Apart s op) (taken : Steps s.1 op s'.1) {p : Nat}
    {interval : UInt64} (here : s.2[p]? = some interval) :
    Counted interval (s'.1.history.count (.fired p))
      (∃ rest handling, s'.1.pc = .calling p rest handling) (s'.1.queue.timers p) := by
  have count := h.counted p interval here
  have old : p < s.1.queue.allocated := by
    rw [← h.added]
    exact (List.getElem?_eq_some_iff.mp here).1
  cases step_one taken p with
  | passes passes =>
    rw [passes.timer, passes.count]
    exact count.still rfl passes.calling.mpr
  | added _ _ _ _ _ _ new => exact absurd new (Nat.ne_of_lt old)
  | taken timer starts idle there due left pc history =>
    rw [left, history]
    refine count.still (by rw [there]; rfl) ?_
    rintro ⟨_, _, calling⟩
    cases idle.symm.trans calling
  | fired timer rest handling visits pc there more left calling history =>
    rw [there] at count
    rw [left, history, List.count_append, List.count_singleton_self]
    refine ⟨?_, .inr ⟨rest, handling, calling⟩⟩
    dsimp only
    rw [toInt_pred more, ← count.1]
    omega
  | dropped timer rest handling visits pc there last => exact absurd (h.positive pc there) last
  | rearmed timer rest handling n returns pc there more left visiting history =>
    rw [there] at count
    rw [left, history]
    exact ⟨count.1, .inl more⟩
  | ended timer rest handling returns pc there last left visiting history =>
    rw [there] at count
    rw [left, history]
    have spent : timer.elapse.toInt ≤ 0 := by
      rw [Int64.lt_iff_toInt_lt] at last
      exact Int.not_lt.mp last
    have whole := count.1
    change interval.toNat ≤ s.1.history.count (.fired p)
    omega
  | cancelled _ _ cancels =>
    subst cancels
    exact absurd apart not_false

/-- A new timer has all its turns left. -/
theorem Owing.counted_new (h : Owing s) {time interval : UInt64} {cb : Nat}
    (apart : Apart s (.addTimer time interval cb)) (taken : Steps s.1 (.addTimer time interval cb) s'.1) :
    Counted interval (s'.1.history.count (.fired s.1.queue.allocated))
      (∃ rest handling, s'.1.pc = .calling s.1.queue.allocated rest handling)
      (s'.1.queue.timers s.1.queue.allocated) := by
  have silent : s.1.history.count (.fired s.1.queue.allocated) = 0 :=
    fired_iff_count.mp fun fired => Nat.lt_irrefl _ (h.known _ fired)
  have value : interval.toInt64.toInt = interval.toNat := toLongLong_small apart.2.1
  obtain ⟨id, n, pc, timer, count⟩ := step_added taken
  rw [timer, count, silent]
  refine ⟨?_, .inl ?_⟩
  · exact (Int.add_zero _).trans value
  · rw [Int64.lt_iff_toInt_lt]
    exact (Int.natCast_pos.mpr apart.1).trans_eq value.symm

theorem Owing.step (h : Owing s) (apart : Apart s op) (steps : Counts s op s') : Owing s' := by
  obtain ⟨taken, grown⟩ := steps
  have silent (p : Nat) (late : s.1.queue.allocated ≤ p) : .fired p ∉ s.1.history := fun fired =>
    Nat.not_lt.mpr late (h.known p fired)
  refine ⟨h.linking.step apart.gentle taken, ?_, fun p fired => ?_, fun p interval here => ?_⟩
  · rw [grown, List.length_append, h.added, allocated_step taken]
  · exact Nat.lt_of_not_le fun late => unborn_step h.linking.refs taken silent late fired
  · rw [grown] at here
    by_cases old : p < s.2.length
    · rw [List.getElem?_append_left old] at here
      exact h.counted_step apart taken here
    · rw [List.getElem?_append_right (Nat.not_lt.mp old)] at here
      obtain ⟨time, cb, rfl, first⟩ := TimerOp.intervals_get here
      obtain rfl : p = s.1.queue.allocated := by
        rw [← h.added]
        omega
      exact h.counted_new apart taken

theorem start_owing (clock : UInt64) : Owing (start (Rbtree.create 0) clock, []) :=
  ⟨start_linking clock, rfl, nofun, nofun⟩

/-- A timer that is to fire again is stored, unless a tick holds it. -/
theorem Owing.waits {l : TimerLoop (Rbtree Nat) Ptr} {intervals : List UInt64} (h : Owing (l, intervals))
    {p : Nat} {interval : UInt64} (here : intervals[p]? = some interval)
    (fewer : l.history.count (.fired p) < interval.toNat) : p ∈ l.pc.batch ∨ Stores l.queue.tree p := by
  obtain ⟨nodes, links⟩ := h.linking.links
  by_cases held : p ∈ l.pc.batch
  · exact .inl held
  · right
    have count := h.counted p interval here
    cases there : l.queue.timers p with
    | none =>
      rw [there] at count
      exact absurd fewer (Nat.not_lt.mpr count)
    | some timer =>
      obtain ⟨n, member⟩ := links.pending p timer there held
      exact (stores_iff links.search.weaken).mpr (List.mem_map_of_mem (f := fun x => x.2.val) member)

/-- A tick takes what is due, unless it is blocked, and calls nothing yet. -/
theorem Owing.ticks {l l' : TimerLoop (Rbtree Nat) Ptr} {intervals : List UInt64}
    (h : Owing (l, intervals)) (tick : op = .perTick ∨ op = .handleRead) (taken : Steps l op l') :
    (∃ batch handling, l'.pc = .visiting batch handling) ∧ l'.history = l.history ∧ op.intervals = [] ∧
      ((∀ p timer, Stores l.queue.tree p → l.queue.timers p = some timer →
        timer.expire < l.queue.clock - l.queue.ownEpoch → p ∈ l'.pc.batch) ↔ ¬ Blocked l.queue) := by
  obtain ⟨nodes, links⟩ := h.linking.links
  rcases tick with rfl | rfl
  · cases step_effect taken with
    | ticked idle run => exact ⟨⟨_, _, rfl⟩, rfl, rfl, links.keyed.takes_all_iff run⟩
  · cases step_effect taken with
    | read idle readable run =>
      have same : Links { l.queue with timerfd := .off } l.pc.batch nodes := links.congr rfl rfl
      exact ⟨⟨_, _, rfl⟩, rfl, rfl, same.keyed.takes_all_iff run⟩

/-- A timer that a tick has taken has fired since the history had `n` events, or is still to be
visited. -/
structure Visited (n p : Nat) (s : TimerLoop (Rbtree Nat) Ptr × List UInt64) : Prop where
  owing : Owing s
  begun : n ≤ s.1.history.length
  visited : p ∈ s.1.pc.rest ∨ .fired p ∈ s.1.history.drop n

theorem Visited.step {n p : Nat} (h : Visited n p s) (apart : Apart s op) (steps : Counts s op s') :
    Visited n p s' := by
  obtain ⟨events, grown⟩ := history_step steps.1
  refine ⟨h.owing.step apart steps, ?_, ?_⟩
  · rw [grown, List.length_append]
    exact Nat.le_add_right_of_le h.begun
  · rcases h.visited with waiting | done
    · cases step_one steps.1 p with
      | passes passes => exact .inl (passes.rest.mpr waiting)
      | added _ _ _ _ _ _ _ pc => exact .inl (by rw [pc]; exact waiting)
      | taken _ _ _ _ _ _ pc => exact .inl pc.2
      | fired _ _ _ _ _ _ _ _ _ history =>
        right
        rw [history, List.drop_append_of_le_length h.begun]
        exact List.mem_append_right _ (List.mem_singleton_self _)
      | dropped _ _ _ _ pc here last => exact absurd (h.owing.positive pc here) last
      | rearmed _ _ _ _ _ pc _ _ _ visiting =>
        rw [pc] at waiting
        rw [visiting]
        exact .inl waiting
      | ended _ _ _ _ pc _ _ _ visiting =>
        rw [pc] at waiting
        rw [visiting]
        exact .inl waiting
      | cancelled _ _ _ _ _ _ pc => exact .inl (by rw [pc]; exact waiting)
    · rw [grown, List.drop_append_of_le_length h.begun]
      exact .inr (List.mem_append_left _ done)

/-- In every run of additions with positive intervals below 2^63, clock readings, ticks and re-arming in
which each insertion finds a new key and no tick finds a due timer blocked: a timer that has not fired
its full number of times is in the tree, or held by the tick that fires it; and a tick fires every
stored timer whose expiry the clock has passed. No step of a tick ends the process. An insertion stores
its timer exactly when the key is new, and a tick takes all due timers exactly when none is blocked. -/
theorem no_timer_lost (clock : UInt64) (l : TimerLoop (Rbtree Nat) Ptr) (intervals : List UInt64)
    (run : Reaches Counts Apart (start (Rbtree.create 0) clock, []) (l, intervals)) :
    (∀ p interval, intervals[p]? = some interval → l.history.count (.fired p) < interval.toNat →
      p ∈ l.pc.batch ∨ Stores l.queue.tree p) ∧
    (∀ op l' s, op = .perTick ∨ op = .handleRead → Apart (l, intervals) op → Steps l op l' →
      Reaches Counts Apart (l', intervals) s → s.1.pc = .idle → ∀ p timer, Stores l.queue.tree p →
      l.queue.timers p = some timer → timer.expire < l.queue.clock - l.queue.ownEpoch →
      .fired p ∈ s.1.history.drop l.history.length) ∧
    (∀ op halt, Apart (l, intervals) op → (op = .perTick ∨ op = .visit ∨ op = .return_ ∨
      op = .handleRead ∧ l.queue.timerfd = .readable) → l.step op ≠ some (.error halt)) ∧
    (∀ time interval cb l', Steps l (.addTimer time interval cb) l' →
      (Stores l'.queue.tree l.queue.allocated ↔
        NewKey l.queue.tree (toLongLong (l.queue.clock - l.queue.ownEpoch + time)))) ∧
    (∀ op l', op = .perTick ∨ op = .handleRead → Steps l op l' →
      ((∀ p timer, Stores l.queue.tree p → l.queue.timers p = some timer →
        timer.expire < l.queue.clock - l.queue.ownEpoch → p ∈ l'.pc.batch) ↔ ¬ Blocked l.queue)) := by
  have owing : Owing (l, intervals) := run.invariant (start_owing clock) fun _ _ _ h apart taken =>
    h.step apart taken
  refine ⟨fun p interval here fewer => owing.waits here fewer,
    fun op l' s tick apart taken rest idle p timer stored here due => ?_,
    fun op halt apart ticks => owing.linking.goes apart.gentle ticks halt,
    fun time interval cb l' taken => ?_, fun op l' tick taken => (owing.ticks tick taken).2.2.2⟩
  · obtain ⟨⟨batch, handling, pc⟩, history, none, takes⟩ := owing.ticks tick taken
    have free : ¬ Blocked l.queue := by
      rcases tick with rfl | rfl
      · exact apart
      · exact apart
    have first : Visited l.history.length p (l', intervals) := by
      have step : Counts (l, intervals) op (l', intervals) := ⟨taken, by rw [none, List.append_nil]⟩
      refine ⟨owing.step apart step, Nat.le_of_eq (congrArg List.length history.symm), .inl ?_⟩
      have member := takes.mpr free p timer stored here due
      rw [pc] at member
      change p ∈ l'.pc.rest
      rw [pc]
      exact member
    have last : Visited l.history.length p s := rest.invariant first fun _ _ _ h apart taken =>
      h.step apart taken
    refine last.visited.resolve_left ?_
    rw [idle]
    exact List.not_mem_nil
  · cases step_effect taken with
    | @added _ _ _ id tree n fd calls free inserted =>
      obtain ⟨nodes, links⟩ := owing.linking.links
      have held := links.created owing.linking.refs (newTimer id time interval cb)
      exact held.stores_iff_new inserted.inserted

/-- On a valid tree, a check that all stored timers expire before 2^63. -/
def expiresBefore (q : TimerQueue (Rbtree Nat) Ptr) : Bool :=
  q.tree.readNodes.any fun nodes => nodes.all fun x =>
    (q.timers x.2.val).all fun timer => timer.expire.toNat < 2 ^ 63

theorem expiresBefore_sound {q : TimerQueue (Rbtree Nat) Ptr} (small : expiresBefore q = true) {x : Nat}
    {timer : Timer Ptr} (stored : Stores q.tree x) (here : q.timers x = some timer) :
    timer.expire.toNat < 2 ^ 63 := by
  obtain ⟨nodes, found, small⟩ := (Option.any_eq_true _ _).mp small
  have member := (stores_iff (Rbtree.readNodes_search found).weaken).mp stored
  obtain ⟨node, inside, rfl⟩ := List.mem_map.mp member
  have bound := List.all_eq_true.mp small node inside
  rw [here] at bound
  exact of_decide_eq_true bound

/-- A blocked timer stands behind one whose expiry is not below 2^63. -/
theorem not_blocked {q : TimerQueue (Rbtree Nat) Ptr} (small : expiresBefore q = true) :
    ¬ Blocked q := by
  rintro ⟨_, _, x, first, _, _, stored, here, _, _, _, late⟩
  exact absurd (expiresBefore_sound small stored here) (Nat.not_lt.mpr late)

/-- A check of `Apart`. -/
def apartly (s : TimerLoop (Rbtree Nat) Ptr × List UInt64) (op : TimerOp) : Bool :=
  gently s.1 op && match op with
  | .addTimer _ interval _ => 0 < interval.toNat ∧ interval.toNat < 2 ^ 63
  | .perTick | .handleRead => expiresBefore s.1.queue
  | .cancelTimer _ => false
  | _ => true

theorem apartly_sound (s : TimerLoop (Rbtree Nat) Ptr × List UInt64) (op : TimerOp)
    (check : apartly s op = true) : Apart s op := by
  obtain ⟨gentle, check⟩ := (Bool.and_eq_true _ _).mp check
  have gentle := gently_sound s.1 op gentle
  cases op with
  | addTimer time interval cb =>
    obtain ⟨positive, small⟩ := of_decide_eq_true check
    exact ⟨positive, small, gentle⟩
  | return_ => exact gentle
  | perTick => exact not_blocked check
  | handleRead => exact not_blocked check
  | cancelTimer => cases check
  | clock => trivial
  | visit => trivial

/-- A step function for `Counts`. -/
def nextCounted : TimerLoop (Rbtree Nat) Ptr × List UInt64 → TimerOp →
    Option (TimerLoop (Rbtree Nat) Ptr × List UInt64) :=
  keeping next fun _ op intervals => intervals ++ op.intervals

theorem reaches_apart {s s' : TimerLoop (Rbtree Nat) Ptr × List UInt64} (ops : List TimerOp)
    (run : ops.foldlM (fun s op => if apartly s op then nextCounted s op else none) s = some s') :
    Reaches Counts Apart s s' ∧ ops.foldlM next s.1 = some s'.1 := by
  have reached := Reaches.of_checked nextCounted apartly apartly_sound ops run
  have taken := foldlM_of_checked nextCounted apartly ops run
  exact ⟨reached.mono_steps fun _ _ _ => keeping_eq_some.mp, foldlM_of_keeping next _ ops taken⟩

/-- Of two timers the first is due, and is to fire twice. The tick fires it, and it is stored again
beside the other one. -/
theorem no_timer_lost_rearmed : ∃ l l' : TimerLoop (Rbtree Nat) Ptr,
    [.addTimer 10 2 7, .addTimer 20 1 8, .clock 1011].foldlM next (start (Rbtree.create 0) 1000) = some l ∧
    [.perTick, .visit, .return_, .visit].foldlM next l = some l' ∧
    (∀ halt, l.step .perTick ≠ some (.error halt)) ∧
    .fired 0 ∈ l'.history.drop l.history.length ∧
    Stores l'.queue.tree 0 ∧ Stores l'.queue.tree 1 := by
  have made : ([.addTimer 10 2 7, .addTimer 20 1 8, .clock 1011].foldlM
      (fun s op => if apartly s op then nextCounted s op else none)
        (start (Rbtree.create 0) 1000, [])).any fun s => s.2 = [2, 1] ∧ s.1.pc = .idle ∧
      s.1.history = [.added 0, .added 1] ∧ apartly s .perTick ∧
      ((s.1.queue.timers 0).any fun timer => timer.expire < s.1.queue.clock - s.1.queue.ownEpoch) ∧
      (nextCounted s .perTick).any fun s' => ([.visit, .return_, .visit].foldlM
        (fun s op => if apartly s op then nextCounted s op else none) s').any fun s'' =>
          s''.2 = [2, 1] ∧ s''.1.pc = .idle ∧ s''.1.history = [.added 0, .added 1, .fired 0] := by
    decide +kernel
  obtain ⟨⟨l, intervals⟩, run, test⟩ := (Option.any_eq_true _ _).mp made
  obtain ⟨rfl, idle, begun, free, due, test⟩ := of_decide_eq_true test
  obtain ⟨timer, here, due⟩ := (Option.any_eq_true _ _).mp due
  obtain ⟨s', starts, test⟩ := (Option.any_eq_true _ _).mp test
  obtain ⟨⟨l', intervals⟩, rest, test⟩ := (Option.any_eq_true _ _).mp test
  obtain ⟨rfl, idle', history⟩ := of_decide_eq_true test
  obtain ⟨before, made⟩ := reaches_apart _ run
  have apart := apartly_sound _ _ free
  have first : Counts (l, [2, 1]) .perTick s' := keeping_eq_some.mp starts
  obtain ⟨after, ticked⟩ := reaches_apart _ rest
  have whole : Reaches Counts Apart (start (Rbtree.create 0) 1000, []) (l', [2, 1]) :=
    (before.step apart first).trans after
  obtain ⟨stored, fires, succeeds, _⟩ := no_timer_lost 1000 l [2, 1] before
  have kept (p : Nat) (interval : UInt64) (added : [2, 1][p]? = some interval)
      (fewer : l'.history.count (.fired p) < interval.toNat) : Stores l'.queue.tree p := by
    refine ((no_timer_lost 1000 l' [2, 1] whole).1 p interval added fewer).resolve_left ?_
    rw [idle']
    exact List.not_mem_nil
  refine ⟨l, l', made, ?_, fun halt => succeeds _ halt apart (.inl rfl), ?_,
    kept 0 2 rfl (by rw [history]; decide), kept 1 1 rfl (by rw [history]; decide)⟩
  · rw [List.foldlM_cons]
    exact Option.bind_eq_some_iff.mpr ⟨s'.1, first.1, ticked⟩
  · have held : Stores l.queue.tree 0 := by
      refine (stored 0 2 rfl (by rw [begun]; decide)).resolve_left ?_
      rw [idle]
      exact List.not_mem_nil
    have same : s' = (s'.1, [2, 1]) := Prod.ext rfl first.2
    rw [same] at after
    exact fires .perTick s'.1 (l', [2, 1]) (.inl rfl) apart first.1 after idle' 0 timer held here
      (of_decide_eq_true due)

/-- Two timers are added for the same tick. The second is not in the tree, and the tick that fires the
first leaves it out. -/
theorem equal_expiry_lost : ∃ l : TimerLoop (Rbtree Nat) Ptr,
    [.addTimer 10 1 7, .addTimer 10 1 8, .clock 1011, .perTick, .visit, .return_, .visit].foldlM next
        (start (Rbtree.create 0) 1000) = some l ∧
      l.history = [.added 0, .added 1, .fired 0] ∧ l.pc = .idle ∧ (l.queue.timers 1).isSome ∧
      ¬ Stores l.queue.tree 1 := by
  have runs : ([.addTimer 10 1 7, .addTimer 10 1 8, .clock 1011, .perTick, .visit, .return_,
      .visit].foldlM next (start (Rbtree.create 0) 1000)).any fun l =>
        l.history = [.added 0, .added 1, .fired 0] ∧ l.pc = .idle ∧ (l.queue.timers 1).isSome ∧
          l.queue.tree.root = l.queue.tree.nil := by
    decide +kernel
  obtain ⟨l, run, test⟩ := (Option.any_eq_true _ _).mp runs
  obtain ⟨history, idle, live, empty⟩ := of_decide_eq_true test
  refine ⟨l, run, history, idle, live, ?_⟩
  rintro ⟨n, e, ⟨nodes, ⟨tree, holds, rfl⟩, member⟩, _⟩
  cases tree with
  | nil => cases member
  | node c l i e r => exact holds.not_nil (by simp) (holds.root.symm.trans empty)

end TimerLoop

end Yamq
