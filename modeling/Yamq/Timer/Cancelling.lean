import Yamq.Timer.Links

/-! Cancelling one timer beside the others. -/
namespace Yamq

namespace TimerQueue

open RedBlack

variable {q q' : TimerQueue (Rbtree Nat) Ptr} {held : List Nat} {nodes : List (Nat × Entry Nat)}
  {p : Nat} {timer : Timer Ptr}

/-- Every live timer that no tick holds knows a node of the tree, which has its expiry and knows the
timer. -/
def Attached (q : TimerQueue (Rbtree Nat) Ptr) (held : List Nat) : Prop :=
  ∀ p timer, q.timers p = some timer → p ∉ held →
    ∃ n, timer.attach = some (.at n) ∧ q.tree.InTree n ⟨toLongLong timer.expire, p⟩

theorem Links.attached (h : Links q held nodes) : Attached q held := by
  intro p timer here outside
  obtain ⟨n, member⟩ := h.pending p timer here outside
  obtain ⟨_, timer', here', attach, _⟩ := h.stored n _ member
  cases here.symm.trans here'
  exact ⟨n, attach, nodes, h.search.weaken, member⟩

/-- A timer of the tree is taken by a tick when it and all before it are due. -/
theorem Links.takes (h : Links q held nodes) : ∃ q' batch, q.expiredTimers = .ok (q', batch) ∧
    ∀ p timer, q.timers p = some timer → p ∉ held →
      (∀ x timer', q.timers x = some timer' → x ∉ held →
        toLongLong timer'.expire ≤ toLongLong timer.expire → timer'.expire < q.clock - q.ownEpoch) →
      p ∈ batch := by
  obtain ⟨q', front, back, rfl, run, _, _, stops⟩ := h.collect (q.clock - q.ownEpoch)
    h.search.weaken.length_lt []
  refine ⟨q', _, run, fun p timer here outside due => ?_⟩
  obtain ⟨n, member⟩ := h.pending p timer here outside
  rcases List.mem_append.mp member with taken | left
  · exact List.mem_map_of_mem (f := fun x => x.2.val) taken
  · -- the first timer that stays is not due, and its key is no greater
    cases back with
    | nil => cases left
    | cons x rest =>
      have first : x ∈ front ++ x :: rest := by simp
      obtain ⟨out, timer', there, _, key⟩ := h.stored x.1 x.2 first
      refine absurd (due _ timer' there out ?_) (stops x rest timer' rfl there)
      rw [← key]
      have ordered := h.search.ordered
      rw [keys_append, keys_cons, List.pairwise_append, List.pairwise_cons] at ordered
      rcases List.mem_cons.mp left with same | later
      · rw [← same]
      · exact (ordered.2.1.1 _ (List.mem_map_of_mem (f := fun x => x.2.key) later)).le

/-- Without the node of a timer the links of the others hold as before. -/
theorem Links.attached_without {front back : List (Nat × Entry Nat)} {n : Nat} {e : Entry Nat}
    (h : Links q held (front ++ (n, e) :: back)) {tree : Rbtree Nat}
    (left : tree.Nodes (front ++ back)) : Attached ({ q with tree }.put e.val none) held := by
  intro x timer there outside
  have other : x ≠ e.val := by
    rintro rfl
    rw [put_timers, Function.update_self] at there
    cases there
  rw [put_timers, Function.update_of_ne other] at there
  obtain ⟨m, member⟩ := h.pending x timer there outside
  obtain ⟨_, timer', there', attach, _⟩ := h.stored m _ member
  cases there.symm.trans there'
  refine ⟨m, attach, _, left, (mem_without h.nodup).mpr ⟨member, fun same => other ?_⟩⟩
  exact congrArg (fun x => x.2.val) same

/-- When the node of a timer takes the entry of the next node, the timer of that one knows an address
that is gone. -/
theorem Links.dangling {front rest : List (Nat × Entry Nat)} {n : Nat} {e : Entry Nat}
    {next : Nat × Entry Nat} (h : Links q held (front ++ (n, e) :: next :: rest)) {tree : Rbtree Nat}
    (left : tree.Nodes (front ++ (n, next.2) :: rest)) :
    ¬ Attached ({ q with tree }.put e.val none) held := by
  intro attached
  have member : next ∈ front ++ (n, e) :: next :: rest := by simp
  have addresses := h.search.weaken.distinct
  rw [List.map_append, List.map_cons, List.map_cons, List.nodup_append, List.nodup_cons,
    List.nodup_cons] at addresses
  obtain ⟨_, ⟨here, last, _⟩, apart⟩ := addresses
  obtain ⟨outside, timer, there, attach, _⟩ := h.stored next.1 next.2 member
  have other : next.2.val ≠ e.val := by
    intro same
    have twice : next = (n, e) := h.same_node member (by simp) same
    exact here (twice ▸ List.mem_cons_self)
  have alive : (({ q with tree }.put e.val none).timers next.2.val) = some timer := by
    rwa [put_timers, Function.update_of_ne other]
  obtain ⟨m, attach', inTree⟩ := attached next.2.val timer alive outside
  cases attach.symm.trans attach'
  have gone := List.mem_map_of_mem (f := Prod.fst) (left.inTree_iff.mp inTree)
  simp only [List.map_append, List.map_cons, List.mem_append, List.mem_cons] at gone
  rcases gone with first | same | later
  · exact apart _ first next.1 (by simp) rfl
  · exact here (same ▸ List.mem_cons_self)
  · exact last later

/-- What a cancellation leaves: all the other timers stay stored, and their links hold exactly when
the node of the cancelled one has at most one child. -/
theorem Links.cancels (h : Links q held nodes) {id : Int} {n : Nat}
    (known : q.ref.lookup id = some (some p)) (here : q.timers p = some timer) (outside : p ∉ held)
    (attach : timer.attach = some (.at n)) : ∃ q', q.cancelTimer id = .ok (q', true) ∧
      q'.allocated = q.allocated ∧ q'.timers = Function.update q.timers p none ∧
      (∀ x, Stores q'.tree x ↔ Stores q.tree x ∧ x ≠ p) ∧
      (Attached q' held ↔ q.tree.Lone n) := by
  obtain ⟨i, front, back, tree, rfl, attach', _, run, one, two, _⟩ := h.cancel known here outside
  cases attach.symm.trans attach'
  have values := h.distinct
  rw [List.map_append, List.map_cons] at values
  have before (x : Nat) : Stores q.tree x ∧ x ≠ p ↔
      x ∈ (front.map fun x => x.2.val) ++ back.map fun x => x.2.val := by
    rw [stores_iff h.search.weaken, List.map_append, List.map_cons, mem_without values]
  by_cases lone : q.tree.Lone n
  · refine ⟨_, run, rfl, rfl, fun x => ?_, iff_of_true (h.attached_without (one lone)) lone⟩
    change Stores tree x ↔ _
    rw [before, stores_iff (one lone), List.map_append]
  · obtain ⟨next, rest, rfl, left⟩ := two lone
    refine ⟨_, run, rfl, rfl, fun x => ?_, iff_of_false (h.dangling left) lone⟩
    change Stores tree x ↔ _
    rw [before, stores_iff left, List.map_append, List.map_cons, List.map_cons]

end TimerQueue

namespace TimerLoop

open Transition TimerQueue

/-- In every run whose insertions find a new key and in which only pending timers are cancelled, whose
nodes have at most one child and go without the faulty last case of the repair: every pending timer
has its node, a cancellation of a pending timer succeeds and takes exactly that timer out of the tree,
and a tick succeeds and takes every timer that is due with all before it. The next cancellation keeps
the links exactly when the node of its timer has at most one child. -/
theorem cancelling_keeps_links (clock : UInt64) (l : TimerLoop (Rbtree Nat) Ptr)
    (run : Reaches Steps Gentle (start (Rbtree.create 0) clock) l) :
    Attached l.queue l.pc.batch ∧
    (∀ id p timer n, l.queue.ref.lookup id = some (some p) → l.queue.timers p = some timer →
      p ∉ l.pc.batch → timer.attach = some (.at n) → ∃ q, l.queue.cancelTimer id = .ok (q, true) ∧
        q.timers = Function.update l.queue.timers p none ∧
        (∀ x, Stores q.tree x ↔ Stores l.queue.tree x ∧ x ≠ p) ∧
        (Attached q l.pc.batch ↔ l.queue.tree.Lone n)) ∧
    ∃ q batch, l.queue.expiredTimers = .ok (q, batch) ∧
      ∀ p timer, l.queue.timers p = some timer → p ∉ l.pc.batch →
        (∀ x timer', l.queue.timers x = some timer' → x ∉ l.pc.batch →
          toLongLong timer'.expire ≤ toLongLong timer.expire →
          timer'.expire < l.queue.clock - l.queue.ownEpoch) → p ∈ batch := by
  have linking : Linking l := run.invariant (start_linking clock) fun _ _ _ h gentle taken =>
    h.step gentle taken
  obtain ⟨nodes, links⟩ := linking.links
  refine ⟨links.attached, fun id p timer n known here outside attach => ?_, links.takes⟩
  obtain ⟨q, cancels, _, left⟩ := links.cancels known here outside attach
  exact ⟨q, cancels, left⟩

/-- Of four timers the one with the least expiry is cancelled, which turns the tree. Then the last one
is cancelled as well. -/
theorem cancelling_keeps_links_turned : ∃ l : TimerLoop (Rbtree Nat) Ptr,
    [.addTimer 20 1 7, .addTimer 10 1 7, .addTimer 30 1 7, .addTimer 40 1 7, .cancelTimer 2].foldlM
      next (start (Rbtree.create 0) 1000) = some l ∧ l.queue.tree.root = .at 3 ∧
    Attached l.queue l.pc.batch ∧ ∃ q, l.queue.cancelTimer 4 = .ok (q, true) ∧
      (∀ x, Stores q.tree x ↔ Stores l.queue.tree x ∧ x ≠ 3) ∧ Attached q l.pc.batch := by
  have made : ([.addTimer 20 1 7, .addTimer 10 1 7, .addTimer 30 1 7, .addTimer 40 1 7,
      .cancelTimer 2].foldlM (fun l op => if gently l op then next l op else none)
        (start (Rbtree.create 0) 1000)).any fun l => l.queue.tree.root = .at 3 ∧
        l.pc = .idle ∧ l.queue.ref.lookup 4 = some (some 3) ∧ l.queue.tree.goesWell 4 ∧
        (l.queue.timers 3).any fun timer => timer.attach = some (.at 4) := by
    decide +kernel
  obtain ⟨l, run, test⟩ := (Option.any_eq_true _ _).mp made
  obtain ⟨root, idle, known, well, test⟩ := of_decide_eq_true test
  obtain ⟨timer, here, attach⟩ := (Option.any_eq_true _ _).mp test
  have outside : 3 ∉ l.pc.batch := by
    rw [idle]
    exact List.not_mem_nil
  obtain ⟨attached, cancels, _⟩ := cancelling_keeps_links 1000 l (reaches_gently _ run)
  obtain ⟨q, cancelled, _, left, links⟩ :=
    cancels 4 3 timer 4 known here outside (of_decide_eq_true attach)
  exact ⟨l, foldlM_of_checked next gently _ run, root, attached, q, cancelled, left,
    links.mpr (Rbtree.goesWell_sound well).1⟩

/-- The step ends the process with a fault. -/
def faults (l : TimerLoop (Rbtree Nat) Ptr) (op : TimerOp) (f : Fault) : Bool :=
  match l.step op with
  | some (.error (.fault f')) => f = f'
  | _ => false

theorem faults_iff {l : TimerLoop (Rbtree Nat) Ptr} {op : TimerOp} {f : Fault} :
    l.faults op f = true ↔ l.step op = some (.error (.fault f)) := by
  unfold faults
  split
  · rename_i f' stops
    rw [stops]
    simp [eq_comm]
  · rename_i other
    exact iff_of_false (by simp) (fun stops => other f stops)

/-- The node of the first of three timers has two children: after its cancellation the third timer
knows a freed node, and its own cancellation reads that. And of four timers the cancellation of the
third, on the right of the root, leaves a tree in which the cancellation of the second dereferences
NULL. -/
theorem cancelling_breaks_links :
    (∃ l, [.addTimer 20 1 7, .addTimer 10 1 7, .addTimer 30 1 7, .cancelTimer 1].foldlM next
        (start (Rbtree.create 0) 1000) = some l ∧ ¬ Attached l.queue l.pc.batch ∧
      l.step (.cancelTimer 3) = some (.error (.fault .useAfterFree))) ∧
    ∃ l, [.addTimer 31 1 7, .addTimer 37 1 7, .addTimer 55 1 7, .addTimer 26 1 7,
        .cancelTimer 3].foldlM next (start (Rbtree.create 0) 1000) = some l ∧
      (l.queue.timers 1).isSome ∧ l.step (.cancelTimer 2) = some (.error (.fault .nullPointer)) := by
  have first : ([.addTimer 20 1 7, .addTimer 10 1 7, .addTimer 30 1 7, .cancelTimer 1].foldlM next
      (start (Rbtree.create 0) 1000)).any (fun l => l.pc = .idle ∧
        ((l.queue.timers 2).any fun timer => timer.attach = some (.at 3)) ∧
        l.queue.tree.heap 3 = none ∧ l.faults (.cancelTimer 3) .useAfterFree) := by
    decide +kernel
  have second : ([.addTimer 31 1 7, .addTimer 37 1 7, .addTimer 55 1 7, .addTimer 26 1 7,
      .cancelTimer 3].foldlM next (start (Rbtree.create 0) 1000)).any (fun l =>
        (l.queue.timers 1).isSome ∧ l.faults (.cancelTimer 2) .nullPointer) := by
    decide +kernel
  constructor
  · obtain ⟨l, run, test⟩ := (Option.any_eq_true _ _).mp first
    obtain ⟨idle, knows, freed, stops⟩ := of_decide_eq_true test
    obtain ⟨timer, here, attach⟩ := (Option.any_eq_true _ _).mp knows
    refine ⟨l, run, fun attached => ?_, faults_iff.mp stops⟩
    have outside : 2 ∉ l.pc.batch := by
      rw [idle]
      exact List.not_mem_nil
    obtain ⟨n, attach', nodes, holds, member⟩ := attached 2 timer here outside
    cases (of_decide_eq_true attach).symm.trans attach'
    obtain ⟨_, read, _⟩ := holds.get member
    simp [Rbtree.get, freed] at read
  · obtain ⟨l, run, test⟩ := (Option.any_eq_true _ _).mp second
    obtain ⟨live, stops⟩ := of_decide_eq_true test
    exact ⟨l, run, live, faults_iff.mp stops⟩

end TimerLoop

end Yamq
