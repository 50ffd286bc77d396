import Yamq.Timer.EqualExpiry

/-! The signed keys of the tree against the unsigned expiries that `PerTick` compares. -/
namespace Yamq

open RedBlack

namespace TimerQueue

variable {q q' : TimerQueue (Rbtree Nat) Ptr} {nodes : List (Nat × Entry Nat)} {p : Nat}
  {timer : Timer Ptr} {batch : List Nat}

/-- Of two stored timers one expires before 2^63 and one does not. -/
def Straddles (q : TimerQueue (Rbtree Nat) Ptr) : Prop :=
  ∃ p timer x first, Stores q.tree p ∧ q.timers p = some timer ∧ Stores q.tree x ∧
    q.timers x = some first ∧ timer.expire.toNat < 2 ^ 63 ∧ 2 ^ 63 ≤ first.expire.toNat

/-- The keys of the tree are in the order of the expiries. -/
def KeysAgree (q : TimerQueue (Rbtree Nat) Ptr) : Prop :=
  ∀ n e timer m f timer', q.tree.InTree n e → q.timers e.val = some timer → q.tree.InTree m f →
    q.timers f.val = some timer' → (e.key < f.key ↔ timer.expire < timer'.expire)

/-- The first loop of `PerTick` at some clock reading ends, and leaves no timer in the tree that has
expired. -/
def TakesAllAt (q : TimerQueue (Rbtree Nat) Ptr) (now : UInt64) : Prop :=
  ∃ q' batch, { q with clock := now }.expiredTimers = .ok (q', batch) ∧ ∀ p timer, Stores q'.tree p →
    q'.timers p = some timer → ¬ timer.expire < now - q.ownEpoch

theorem Keyed.congr (h : Keyed q nodes) (tree : q'.tree = q.tree) (timers : q'.timers = q.timers) :
    Keyed q' nodes := by
  obtain ⟨search, timer⟩ := h
  rw [← tree] at search
  rw [← timers] at timer
  exact ⟨search, timer⟩

/-- A timer outside the tree may be written and deleted. -/
theorem Keyed.put (h : Keyed q nodes) (outside : ∀ x ∈ nodes, x.2.val ≠ p) (t : Option (Timer Ptr)) :
    Keyed (q.put p t) nodes := by
  refine ⟨h.search, fun x member => ?_⟩
  rw [put_timers, Function.update_of_ne (outside x member)]
  exact h.timer x member

/-- `rbtree_insert` of a timer that has no node: one node more, or none for a known key. -/
theorem Keyed.insert (h : Keyed q nodes) (outside : ∀ x ∈ nodes, x.2.val ≠ p) {tree : Rbtree Nat}
    {n : Ptr}
    (inserted : TimerTree.insertTimer q.tree (toLongLong (q.expireOf timer)) p = .ok (tree, n))
    (fd : Timerfd) : ∃ nodes', Keyed (q.placed p timer tree n fd) nodes' ∧
      ∀ x ∈ nodes', x.2.val = p ∨ x ∈ nodes := by
  have inserts : q.tree.insert (toLongLong (q.expireOf timer)) p = .ok (tree, n) := inserted
  have kept (x : Nat × Entry Nat) (member : x ∈ nodes) : ∃ timer',
      (q.placed p timer tree n fd).timers x.2.val = some timer' ∧
        x.2.key = toLongLong timer'.expire := by
    rw [placed_timers, Function.update_of_ne (outside x member)]
    exact h.timer x member
  by_cases known : toLongLong (q.expireOf timer) ∈ keys Entry.key nodes
  · obtain ⟨tree', run, search⟩ := h.search.insert_known p known
    cases run.symm.trans inserts
    exact ⟨nodes, ⟨search, kept⟩, fun x member => .inr member⟩
  · obtain ⟨tree', front, back, run, rfl, search, _⟩ := h.search.insert p known
    cases run.symm.trans inserts
    have members (x : Nat × Entry Nat) : x ∈ front ++
        (q.tree.fresh, ⟨toLongLong (q.expireOf timer), p⟩) :: back →
          x = (q.tree.fresh, ⟨toLongLong (q.expireOf timer), p⟩) ∨ x ∈ front ++ back := by
      simp only [List.mem_append, List.mem_cons]
      exact or_left_comm.mp
    refine ⟨_, ⟨search, fun x member => ?_⟩, fun x member => ?_⟩
    · rcases members x member with rfl | old
      · exact ⟨_, Function.update_self .., rfl⟩
      · exact kept x old
    · rcases members x member with rfl | old
      · exact .inl rfl
      · exact .inr old

/-- `PerTick` up to its second loop. -/
theorem Keyed.expiredTimers (h : Keyed q nodes) : ∃ q' front back, nodes = front ++ back ∧
    q.expiredTimers = .ok (q', front.map fun x => x.2.val) ∧ Keyed q' back ∧
    (front.map fun x => x.2.val).Nodup ∧ ∀ x ∈ back, (x.2.val ∉ front.map fun x => x.2.val) ∧
      q'.timers x.2.val = q.timers x.2.val := by
  obtain ⟨q', front, back, rfl, run, keyed, _⟩ :=
    h.collect (q.clock - q.ownEpoch) h.search.weaken.length_lt []
  obtain ⟨taken, same, collected⟩ := collect_ok run
  cases List.append_cancel_left same
  have distinct := h.distinct
  rw [List.map_append, List.nodup_append] at distinct
  refine ⟨q', front, back, rfl, run, keyed, distinct.1, fun x member => ?_⟩
  have outside : x.2.val ∉ front.map fun x => x.2.val := fun taken =>
    distinct.2.2 _ taken _ (List.mem_map_of_mem (f := fun x => x.2.val) member) rfl
  exact ⟨outside, collected.others _ outside⟩

theorem Keyed.keysAgree_iff (h : Keyed q nodes) : KeysAgree q ↔ ¬ Straddles q := by
  have weak := h.search.weaken
  have key {n : Nat} {e : Entry Nat} {timer : Timer Ptr} (inside : q.tree.InTree n e)
      (here : q.timers e.val = some timer) : e.key = toLongLong timer.expire := by
    obtain ⟨timer', here', key⟩ := h.timer (n, e) ((weak.inTree_iff ..).mp inside)
    cases here.symm.trans here'
    exact key
  constructor
  · rintro agree ⟨_, timer, _, first, ⟨n, e, inside, rfl⟩, here, ⟨m, f, inside', rfl⟩, there, small, large⟩
    have sooner : timer.expire < first.expire := UInt64.lt_iff_toNat_lt.mpr (by omega)
    have before := (agree n e timer m f first inside here inside' there).mpr sooner
    rw [key inside here, key inside' there] at before
    have bound := first.expire.toNat_lt
    rcases toLongLong_cases timer.expire with ⟨_, value⟩ | ⟨_, value⟩ <;>
      rcases toLongLong_cases first.expire with ⟨_, value'⟩ | ⟨_, value'⟩ <;> omega
  · intro apart n e timer m f timer' inside here inside' there
    have sides : ¬ (timer.expire.toNat < 2 ^ 63 ∧ 2 ^ 63 ≤ timer'.expire.toNat) := fun sides =>
      apart ⟨_, timer, _, timer', ⟨n, e, inside, rfl⟩, here, ⟨m, f, inside', rfl⟩, there, sides⟩
    have sides' : ¬ (timer'.expire.toNat < 2 ^ 63 ∧ 2 ^ 63 ≤ timer.expire.toNat) := fun sides =>
      apart ⟨_, timer', _, timer, ⟨m, f, inside', rfl⟩, there, ⟨n, e, inside, rfl⟩, here, sides⟩
    rw [key inside here, key inside' there, UInt64.lt_iff_toNat_lt]
    rcases toLongLong_cases timer.expire with ⟨_, value⟩ | ⟨_, value⟩ <;>
      rcases toLongLong_cases timer'.expire with ⟨_, value'⟩ | ⟨_, value'⟩ <;> omega

/-- A timer is blocked at some clock reading. -/
theorem straddles_iff : Straddles q ↔ ∃ now, Blocked { q with clock := now } := by
  constructor
  · rintro ⟨p, timer, x, first, stored, here, stored', there, small, large⟩
    have now : q.ownEpoch + (timer.expire + 1) - q.ownEpoch = timer.expire + 1 := by
      rw [UInt64.add_comm, UInt64.add_sub_cancel]
    have value : (timer.expire + 1).toNat = timer.expire.toNat + 1 := by
      rw [UInt64.toNat_add, Nat.mod_eq_of_lt]
      · rfl
      · change timer.expire.toNat + 1 < 2 ^ 64
        omega
    refine ⟨q.ownEpoch + (timer.expire + 1), p, timer, x, first, stored, here, stored', there, ?_, small,
      ?_, large⟩
    · dsimp only
      rw [now, UInt64.lt_iff_toNat_lt, value]
      exact Nat.lt_succ_self _
    · dsimp only
      rw [now, UInt64.lt_iff_toNat_lt, value]
      omega
  · rintro ⟨now, p, timer, x, first, stored, here, stored', there, _, small, _, large⟩
    exact ⟨p, timer, x, first, stored, here, stored', there, small, large⟩

theorem Keyed.takesAllAt_iff (h : Keyed q nodes) (now : UInt64) :
    TakesAllAt q now ↔ ¬ Blocked { q with clock := now } := by
  have same : Keyed { q with clock := now } nodes := h.congr rfl rfl
  obtain ⟨q', front, back, rfl, run, keyed, distinct, left⟩ := same.expiredTimers
  rw [← same.takes_all_iff run]
  have stores (p : Nat) : Stores q'.tree p ↔ p ∈ back.map fun x => x.2.val :=
    stores_iff keyed.search.weaken
  constructor
  · rintro ⟨_, _, run', none⟩ p timer stored here due
    cases run.symm.trans run'
    rw [stores_iff same.search.weaken, List.map_append, List.mem_append] at stored
    refine stored.resolve_right fun later => ?_
    obtain ⟨x, member, rfl⟩ := List.mem_map.mp later
    exact none _ timer ((stores _).mpr later) ((left x member).2.trans here) due
  · intro all
    refine ⟨q', _, run, fun p timer stored here due => ?_⟩
    obtain ⟨x, member, rfl⟩ := List.mem_map.mp ((stores p).mp stored)
    obtain ⟨outside, kept⟩ := left x member
    rw [kept] at here
    refine outside (all _ timer ?_ here due)
    rw [stores_iff same.search.weaken]
    exact List.mem_map_of_mem (f := fun x => x.2.val) (List.mem_append_right _ member)

theorem Keyed.takes_all_always_iff (h : Keyed q nodes) :
    (∀ now, TakesAllAt q now) ↔ ¬ Straddles q := by
  rw [straddles_iff, not_exists]
  exact forall_congr' h.takesAllAt_iff

end TimerQueue

namespace TimerLoop

open Transition TimerQueue

variable {l l' : TimerLoop (Rbtree Nat) Ptr} {op : TimerOp}

/-- Timers are added through `EventDispatcher::AddTimer`, and none is cancelled. -/
def Dispatched (_ : TimerLoop (Rbtree Nat) Ptr) : TimerOp → Prop
  | .addTimer time interval cb => ∃ timeMs interval',
      .addTimer time interval cb = TimerOp.evdAddTimer timeMs interval' cb
  | .cancelTimer _ => False
  | _ => True

/-- What such runs keep. The timers that `PerTick` holds are outside the tree. -/
structure Filed (l : TimerLoop (Rbtree Nat) Ptr) : Prop where
  refs : Refs l.queue
  keyed : ∃ nodes, Keyed l.queue nodes ∧ ∀ x ∈ nodes, x.2.val ∉ l.pc.batch
  distinct : l.pc.batch.Nodup
  young : ∀ p ∈ l.pc.batch, p < l.queue.allocated

theorem start_filed (clock : UInt64) : Filed (start (Rbtree.create 0) clock) :=
  ⟨start_refs .., ⟨[], ⟨Rbtree.create_search 0, List.forall_mem_nil _⟩, List.forall_mem_nil _⟩,
    List.nodup_nil, List.forall_mem_nil _⟩

theorem Filed.tick (h : Filed l) {q q' : TimerQueue (Rbtree Nat) Ptr}
    {batch : List Nat} {handling : Bool} (tree : q.tree = l.queue.tree)
    (timers : q.timers = l.queue.timers) (refs : Refs q') (allocated : q'.allocated = l.queue.allocated)
    (run : q.expiredTimers = .ok (q', batch)) : Filed ⟨q', .visiting batch handling, l.history⟩ := by
  obtain ⟨nodes, keyed, _⟩ := h.keyed
  have start : Keyed q nodes := keyed.congr tree timers
  obtain ⟨_, front, back, rfl, run', rest, distinct, left⟩ := start.expiredTimers
  cases run'.symm.trans run
  refine ⟨refs, ⟨back, rest, fun x member => (left x member).1⟩, distinct, fun p member => ?_⟩
  obtain ⟨x, inFront, rfl⟩ := List.mem_map.mp member
  obtain ⟨timer, here, _⟩ := start.timer x (List.mem_append_left _ inFront)
  rw [timers] at here
  rw [allocated]
  exact (h.refs.known _ timer here).1

/-- A turn of the second loop writes or deletes the timer that it holds. -/
theorem Filed.turn (h : Filed l) {p : Nat} {rest : List Nat} (batch : l.pc.batch = p :: rest)
    {q' : TimerQueue (Rbtree Nat) Ptr} {pc' : TickPc} {history : List TimerEvent} (refs : Refs q')
    {t : Option (Timer Ptr)} (put : q' = l.queue.put p t)
    (next : pc'.batch = p :: rest ∨ pc'.batch = rest) : Filed ⟨q', pc', history⟩ := by
  subst put
  obtain ⟨nodes, keyed, outside⟩ := h.keyed
  have distinct := h.distinct
  have young := h.young
  rw [batch] at outside distinct young
  have free (x : Nat × Entry Nat) (member : x ∈ nodes) : x.2.val ≠ p := fun same =>
    outside x member (same ▸ List.mem_cons_self)
  have fewer : ∀ x ∈ pc'.batch, x ∈ p :: rest := by
    rcases next with same | next
    · rw [same]
      exact fun _ member => member
    · rw [next]
      exact fun _ member => List.mem_cons_of_mem p member
  refine ⟨refs, ⟨nodes, keyed.put free t, fun x member held => outside x member (fewer _ held)⟩, ?_,
    fun x held => young x (fewer x held)⟩
  rcases next with same | next
  · rw [same]
    exact distinct
  · rw [next]
    exact (List.nodup_cons.mp distinct).2

theorem Filed.step (h : Filed l) (dispatched : Dispatched l op) (steps : Steps l op l') : Filed l' := by
  have refs := refs_step h.refs steps
  obtain ⟨nodes, keyed, outside⟩ := h.keyed
  cases step_effect steps with
  | clock now => exact ⟨refs, ⟨nodes, keyed.congr rfl rfl, outside⟩, h.distinct, h.young⟩
  | @added time interval cb id tree n fd calls free inserted =>
    have fresh (x : Nat × Entry Nat) (member : x ∈ nodes) : x.2.val ≠ l.queue.allocated := by
      obtain ⟨timer, here, _⟩ := keyed.timer x member
      exact Nat.ne_of_lt (h.refs.known _ timer here).1
    have made : Keyed (l.queue.created (newTimer id time interval cb)) nodes :=
      (keyed.put fresh (some (newTimer id time interval cb))).congr rfl rfl
    obtain ⟨nodes', placed, members⟩ := made.insert fresh inserted.inserted fd
    refine ⟨refs, ⟨nodes', placed, fun x member held => ?_⟩, h.distinct,
      fun x member => Nat.lt_succ_of_lt (h.young x member)⟩
    rcases members x member with new | old
    · rw [new] at held
      exact Nat.lt_irrefl _ (h.young _ held)
    · exact outside x old held
  | unknown => exact absurd dispatched not_false
  | cancelled => exact absurd dispatched not_false
  | ticked idle run =>
    obtain ⟨_, _, collected⟩ := collect_ok run
    exact h.tick rfl rfl refs collected.same.allocated run
  | read idle readable run =>
    obtain ⟨_, _, collected⟩ := collect_ok run
    refine h.tick ?_ ?_ refs collected.same.allocated run
    · rfl
    · rfl
  | finished pc => exact ⟨refs, ⟨nodes, keyed, fun _ _ => List.not_mem_nil⟩, List.nodup_nil,
      List.forall_mem_nil _⟩
  | rearmed pc run =>
    obtain ⟨fd, rfl⟩ := rearm_ok run
    exact ⟨refs, ⟨nodes, keyed.congr rfl rfl, fun _ _ => List.not_mem_nil⟩, List.nodup_nil,
      List.forall_mem_nil _⟩
  | fired pc => exact h.turn (by rw [pc]; rfl) refs rfl (.inl rfl)
  | dropped pc => exact h.turn (by rw [pc]; rfl) refs rfl (.inr rfl)
  | ended pc => exact h.turn (by rw [pc]; rfl) refs rfl (.inr rfl)
  | @readded p rest handling timer tree n fd pc here more inserted =>
    have batch : l.pc.batch = p :: rest := by
      rw [pc]
      rfl
    have distinct := h.distinct
    have young := h.young
    rw [batch] at outside distinct young
    obtain ⟨apart, distinct⟩ := List.nodup_cons.mp distinct
    have free (x : Nat × Entry Nat) (member : x ∈ nodes) : x.2.val ≠ p := fun same =>
      outside x member (same ▸ List.mem_cons_self)
    obtain ⟨nodes', placed, members⟩ := keyed.insert free inserted.inserted fd
    refine ⟨refs, ⟨nodes', placed, fun x member held => ?_⟩, distinct,
      fun x member => young x (List.mem_cons_of_mem p member)⟩
    rcases members x member with new | old
    · exact apart (new ▸ held)
    · exact outside x old (List.mem_cons_of_mem p held)

/-- In every run in which the timers are added through `EventDispatcher::AddTimer`: the keys are in the
order of the expiries, and at every clock reading the first loop of `PerTick` leaves no expired timer in
the tree, exactly when the stored timers all expire on one side of 2^63. -/
theorem keys_agree_iff (clock : UInt64) (l : TimerLoop (Rbtree Nat) Ptr)
    (run : Reaches Steps Dispatched (start (Rbtree.create 0) clock) l) :
    (KeysAgree l.queue ↔ ¬ Straddles l.queue) ∧
      ((∀ now, TakesAllAt l.queue now) ↔ ¬ Straddles l.queue) := by
  have filed : Filed l := run.invariant (start_filed clock) fun _ _ _ h dispatched taken =>
    h.step dispatched taken
  obtain ⟨nodes, keyed, _⟩ := filed.keyed
  exact ⟨keyed.keysAgree_iff, keyed.takes_all_always_iff⟩

/-- Three timers, which are added out of order. The first of them fires and is gone, and the keys of the
two others are in the order of their expiries. -/
theorem keys_agree_iff_ordered : ∃ l : TimerLoop (Rbtree Nat) Ptr,
    [.evdAddTimer 3 2 7, .evdAddTimer 1 1 8, .evdAddTimer 2 1 9, .clock 1001001, .perTick, .visit,
      .return_, .visit].foldlM next (start (Rbtree.create 0) 1000) = some l ∧
    l.history = [.added 0, .added 1, .added 2, .fired 1] ∧ ¬ Straddles l.queue ∧ KeysAgree l.queue ∧
    ∀ now, TakesAllAt l.queue now := by
  let ops : List TimerOp := [.evdAddTimer 3 2 7, .evdAddTimer 1 1 8, .evdAddTimer 2 1 9,
    .clock 1001001, .perTick, .visit, .return_, .visit]
  have made : (ops.foldlM (fun l op => if decide (op ∈ ops) then next l op else none)
      (start (Rbtree.create 0) 1000)).any fun l =>
        l.history = [.added 0, .added 1, .added 2, .fired 1] ∧ expiresBefore l.queue := by
    decide +kernel
  have dispatched (l : TimerLoop (Rbtree Nat) Ptr) (op : TimerOp)
      (one : decide (op ∈ ops) = true) : Dispatched l op := by
    have one := of_decide_eq_true one
    simp only [ops, List.mem_cons, List.not_mem_nil, or_false] at one
    rcases one with rfl | rfl | rfl | rfl | rfl | rfl | rfl | rfl
    · exact ⟨3, 2, rfl⟩
    · exact ⟨1, 1, rfl⟩
    · exact ⟨2, 1, rfl⟩
    all_goals trivial
  obtain ⟨l, run, test⟩ := (Option.any_eq_true _ _).mp made
  obtain ⟨history, small⟩ := of_decide_eq_true test
  have apart : ¬ Straddles l.queue := by
    rintro ⟨_, _, x, first, _, _, stored, here, _, late⟩
    exact absurd (expiresBefore_sound small stored here) (Nat.not_lt.mpr late)
  obtain ⟨agree, takes⟩ := keys_agree_iff 1000 l
    (.of_checked next (fun _ op => decide (op ∈ ops)) dispatched ops run)
  exact ⟨l, foldlM_of_checked next (fun _ op => decide (op ∈ ops)) ops run, history,
    apart, agree.mpr apart, takes.mpr apart⟩

/-- A timer for one millisecond ago stands before one for the next millisecond. When that has passed,
`PerTick` takes neither: the timer in the node on the right has expired and is left. -/
theorem keys_disagree : ∃ l : TimerLoop (Rbtree Nat) Ptr,
    [.evdAddTimer (-1) 1 7, .evdAddTimer 1 1 8, .clock 1001001, .perTick, .visit].foldlM next
        (start (Rbtree.create 0) 1000) = some l ∧
      l.history = [.added 0, .added 1] ∧ l.pc = .idle ∧ l.queue.tree.root = .at 1 ∧
      (l.queue.tree.get (.at 1)).toOption.any (fun n => n.entry = ⟨-1000000, 0⟩ ∧ n.right = .at 2) ∧
      (l.queue.tree.get (.at 2)).toOption.any (fun n => n.entry = ⟨1000000, 1⟩) ∧
      (l.queue.timers 0).any (fun timer => timer.expire = 18446744073708551616) ∧
      (l.queue.timers 1).any (fun timer => timer.expire = 1000000) ∧
      l.queue.clock - l.queue.ownEpoch = 1000001 := by
  have runs : ([.evdAddTimer (-1) 1 7, .evdAddTimer 1 1 8, .clock 1001001, .perTick, .visit].foldlM next
      (start (N := Ptr) (Rbtree.create 0) 1000)).any fun l =>
        l.history = [.added 0, .added 1] ∧ l.pc = .idle ∧ l.queue.tree.root = .at 1 ∧
        (l.queue.tree.get (.at 1)).toOption.any (fun n => n.entry = ⟨-1000000, 0⟩ ∧ n.right = .at 2) ∧
        (l.queue.tree.get (.at 2)).toOption.any (fun n => n.entry = ⟨1000000, 1⟩) ∧
        (l.queue.timers 0).any (fun timer => timer.expire = 18446744073708551616) ∧
        (l.queue.timers 1).any (fun timer => timer.expire = 1000000) ∧
        l.queue.clock - l.queue.ownEpoch = 1000001 := by
    decide +kernel
  obtain ⟨l, run, test⟩ := (Option.any_eq_true _ _).mp runs
  exact ⟨l, run, of_decide_eq_true test⟩

end TimerLoop
end Yamq
