import Mathlib.Data.List.Nodup
import Yamq.Timer.Tick

/-! The first loop of `PerTick` over a tree whose keys are the expiries of its timers. Which nodes the
timers point to does not matter for it. -/
namespace Yamq.TimerQueue

open TimerTree RedBlack

variable {q q' : TimerQueue (Rbtree Nat) Ptr} {nodes : List (Nat × Entry Nat)}

/-- A valid tree of live timers, with the expiry of its timer as the key of each node. -/
structure Keyed (q : TimerQueue (Rbtree Nat) Ptr) (nodes : List (Nat × Entry Nat)) : Prop where
  search : q.tree.Search nodes
  timer : ∀ x ∈ nodes, ∃ timer, q.timers x.2.val = some timer ∧ x.2.key = toLongLong timer.expire

theorem Keyed.distinct (h : Keyed q nodes) : (nodes.map fun x => x.2.val).Nodup := by
  have ordered := h.search.ordered
  rw [keys, List.pairwise_map] at ordered
  rw [List.Nodup, List.pairwise_map]
  refine ordered.imp_of_mem fun {x y} inX inY less same => ?_
  obtain ⟨timer, here, key⟩ := h.timer x inX
  obtain ⟨timer', here', key'⟩ := h.timer y inY
  rw [same, here', Option.some.injEq] at here
  rw [key, key', here] at less
  exact lt_irrefl _ less

/-- The node of a timer leaves the tree. -/
theorem Keyed.remove {x : Nat × Entry Nat} {rest : List (Nat × Entry Nat)} (h : Keyed q (x :: rest))
    {tree : Rbtree Nat} (search : tree.Search rest) (t : Option (Timer Ptr)) :
    Keyed ({ q with tree }.put x.2.val t) rest := by
  have distinct := h.distinct
  rw [List.map_cons, List.nodup_cons] at distinct
  refine ⟨search, fun y member => ?_⟩
  have other : y.2.val ≠ x.2.val := fun same =>
    distinct.1 (same ▸ List.mem_map_of_mem (f := fun x => x.2.val) member)
  rw [put_timers, Function.update_of_ne other]
  exact h.timer y (List.mem_cons_of_mem _ member)

/-- The loop takes the timers before the first one that is not due. -/
theorem Keyed.collect (h : Keyed q nodes) (now : UInt64) {fuel : Nat} (enough : nodes.length < fuel)
    (expired : List Nat) : ∃ q' front back, nodes = front ++ back ∧
      collect now fuel q expired = .ok (q', expired ++ front.map fun x => x.2.val) ∧
      Keyed q' back ∧
      (∀ x timer, x ∈ front → q.timers x.2.val = some timer → timer.expire < now) ∧
      ∀ x rest timer, back = x :: rest → q.timers x.2.val = some timer → ¬ timer.expire < now := by
  induction nodes generalizing q fuel expired with
  | nil =>
    obtain ⟨fuel, rfl⟩ : ∃ f, fuel = f + 1 := ⟨fuel - 1, by omega⟩
    exact ⟨q, [], [], rfl, by simp [collect_nil h.search.weaken], h, nofun, nofun⟩
  | cons x rest ih =>
    obtain ⟨i, e⟩ := x
    rw [List.length_cons] at enough
    obtain ⟨fuel, rfl⟩ : ∃ f, fuel = f + 1 := ⟨fuel - 1, by omega⟩
    obtain ⟨timer, here, _⟩ := h.timer (i, e) List.mem_cons_self
    have distinct := h.distinct
    rw [List.map_cons, List.nodup_cons] at distinct
    rw [collect_cons h.search.weaken here]
    by_cases due : timer.expire < now
    · obtain ⟨tree, deleted, search, _⟩ := h.search.delete_least
      rw [if_pos due, deleted, lift, ok_bind]
      obtain ⟨q', front, back, rfl, run, keyed, takes, stops⟩ :=
        ih (h.remove search (some { timer with attach := none })) (Nat.lt_of_succ_lt_succ enough)
          (expired ++ [e.val])
      have same {x : Nat × Entry Nat} (member : x ∈ front ++ back) :
          ({ q with tree }.put e.val (some { timer with attach := none })).timers x.2.val =
            q.timers x.2.val := by
        have other : x.2.val ≠ e.val := fun same =>
          distinct.1 (same ▸ List.mem_map_of_mem (f := fun x => x.2.val) member)
        rw [put_timers, Function.update_of_ne other]
      refine ⟨q', (i, e) :: front, back, rfl, ?_, keyed, ?_, ?_⟩
      · rw [run]
        simp
      · rintro x timer' (_ | ⟨_, member⟩) there
        · cases here.symm.trans there
          exact due
        · exact takes x timer' member ((same (List.mem_append_left _ member)).trans there)
      · rintro x last timer' rfl there
        exact stops x last timer' rfl ((same (by simp)).trans there)
    · rw [if_neg due]
      refine ⟨q, [], (i, e) :: rest, rfl, by simp, h, nofun, ?_⟩
      rintro x last timer' first there
      cases first
      cases here.symm.trans there
      exact due

/-- For every valid tree of timers whose expiries, all below 2^63, are the keys, and every clock
reading: the first loop of `PerTick` ends, takes exactly the timers whose expiry has passed, in
ascending order of expiry and with no node any more, and leaves a valid tree of exactly the others. -/
theorem extracts_due (search : q.tree.Search nodes) (timers : ∀ x ∈ nodes, ∃ timer,
      q.timers x.2.val = some timer ∧ x.2.key = timer.expire.toNat ∧ timer.expire.toNat < 2 ^ 63) :
    ∃ q' front back, q.expiredTimers = .ok (q', front.map fun x => x.2.val) ∧ nodes = front ++ back ∧
      (∀ x ∈ front, ∃ timer, q.timers x.2.val = some timer ∧ timer.expire < q.clock - q.ownEpoch ∧
        x.2.key = timer.expire.toNat ∧ q'.timers x.2.val = some { timer with attach := none }) ∧
      (front.map fun x => x.2.key).Pairwise (· < ·) ∧
      q'.tree.Search back ∧
      (∀ x ∈ back, ∃ timer, q.timers x.2.val = some timer ∧ ¬ timer.expire < q.clock - q.ownEpoch) ∧
      ∀ p, p ∉ front.map (fun x => x.2.val) → q'.timers p = q.timers p := by
  have keyed : Keyed q nodes := by
    refine ⟨search, fun x member => ?_⟩
    obtain ⟨timer, here, key, small⟩ := timers x member
    exact ⟨timer, here, by rw [key, toLongLong_small small]⟩
  obtain ⟨q', front, back, rfl, run, left, takes, stops⟩ :=
    keyed.collect (q.clock - q.ownEpoch) search.weaken.length_lt []
  obtain ⟨taken, same, collected⟩ := collect_ok run
  rw [List.nil_append] at run same
  rw [List.nil_append] at same
  subst same
  have ordered := search.ordered
  rw [keys_append, List.pairwise_append] at ordered
  refine ⟨q', front, back, run, rfl, fun x member => ?_, ordered.1, left.search, fun x member => ?_,
    collected.others⟩
  · obtain ⟨timer, here, key, _⟩ := timers x (List.mem_append_left _ member)
    obtain ⟨timer', here', due, gone⟩ := collected.due x.2.val
      (List.mem_map_of_mem (f := fun x => x.2.val) member)
    cases here.symm.trans here'
    exact ⟨timer, here, due, key, gone⟩
  · obtain ⟨timer, here, key, _⟩ := timers x (List.mem_append_right _ member)
    refine ⟨timer, here, ?_⟩
    cases back with
    | nil => cases member
    | cons y rest =>
      obtain ⟨first, there, keyY, _⟩ := timers y (by simp)
      have undue := stops y rest first rfl there
      have before : y.2.key ≤ x.2.key := by
        rw [keys_cons, List.pairwise_cons] at ordered
        rcases List.mem_cons.mp member with rfl | later
        · exact le_rfl
        · exact (ordered.2.1.1 _ (List.mem_map_of_mem (f := fun x => x.2.key) later)).le
      rw [UInt64.lt_iff_toNat_lt] at undue ⊢
      omega

/-- Of four timers two are due. The tree turns when the first of them leaves it. -/
theorem extracts_due_two : ∃ (l : TimerLoop (Rbtree Nat) Ptr) (q' : TimerQueue (Rbtree Nat) Ptr),
    [.addTimer 20 1 7, .addTimer 10 1 7, .addTimer 30 1 7, .addTimer 40 1 7, .clock 1025].foldlM
      TimerLoop.next (TimerLoop.start (Rbtree.create 0) 1000) = some l ∧ l.queue.tree.root = .at 1 ∧
    l.queue.expiredTimers = .ok (q', [1, 0]) ∧ q'.tree.root = .at 3 ∧
    q'.tree.Search [(3, ⟨30, 2⟩), (4, ⟨40, 3⟩)] := by
  let nodes : List (Nat × Entry Nat) := [(2, ⟨10, 1⟩), (1, ⟨20, 0⟩), (3, ⟨30, 2⟩), (4, ⟨40, 3⟩)]
  have made : ([.addTimer 20 1 7, .addTimer 10 1 7, .addTimer 30 1 7, .addTimer 40 1 7,
      .clock 1025].foldlM TimerLoop.next (TimerLoop.start (Rbtree.create 0) 1000)).any fun l =>
        l.queue.tree.root = .at 1 ∧ l.queue.tree.readNodes = some nodes ∧
        (nodes.all fun x => (l.queue.timers x.2.val).any fun timer =>
          x.2.key = timer.expire.toNat ∧ timer.expire.toNat < 2 ^ 63) ∧
        l.queue.expiredTimers.toOption.any fun r => r.1.tree.root = .at 3 ∧ r.2 = [1, 0] := by
    decide +kernel
  obtain ⟨l, run, test⟩ := (Option.any_eq_true _ _).mp made
  obtain ⟨root, found, timers, test⟩ := of_decide_eq_true test
  obtain ⟨⟨q, batch⟩, taken, test⟩ := (Option.any_eq_true _ _).mp test
  obtain ⟨turned, rfl⟩ := of_decide_eq_true test
  have linked : ∀ x ∈ nodes, ∃ timer, l.queue.timers x.2.val = some timer ∧
      x.2.key = timer.expire.toNat ∧ timer.expire.toNat < 2 ^ 63 := by
    intro x member
    obtain ⟨timer, here, keyed⟩ := (Option.any_eq_true _ _).mp (List.all_eq_true.mp timers x member)
    exact ⟨timer, here, of_decide_eq_true keyed⟩
  obtain ⟨q', front, back, extracts, whole, _, _, left, _⟩ :=
    extracts_due (Rbtree.readNodes_search found) linked
  rw [extracts] at taken
  obtain ⟨rfl, values⟩ := Prod.mk.inj (Option.some.inj taken)
  have two : front.length = 2 := by rw [← List.length_map (f := fun x => x.2.val), values]; rfl
  obtain rfl : back = nodes.drop 2 := by rw [whole, ← two, List.drop_left]
  rw [values] at extracts
  exact ⟨l, q', run, root, extracts, turned, left⟩

end Yamq.TimerQueue
