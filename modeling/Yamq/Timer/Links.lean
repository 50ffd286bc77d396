import Yamq.Base.RbTreeValidity
import Yamq.Timer.Extraction
import Yamq.Timer.TimerRefs

/-! The links between the timers and the nodes of the tree: each node's timer knows the node. -/
namespace Yamq.TimerQueue

open TimerTree RedBlack

variable {q q' : TimerQueue (Rbtree Nat) Ptr} {held : List Nat} {nodes : List (Nat × Entry Nat)}
  {p : Nat} {timer : Timer Ptr}

/-- The nodes of the tree and the live timers, without those that are held outside the tree, are
linked to each other. -/
structure Links (q : TimerQueue (Rbtree Nat) Ptr) (held : List Nat) (nodes : List (Nat × Entry Nat)) :
    Prop where
  search : q.tree.Search nodes
  stored : ∀ n e, (n, e) ∈ nodes → e.val ∉ held ∧ ∃ timer, q.timers e.val = some timer ∧
    timer.attach = some (.at n) ∧ e.key = toLongLong timer.expire
  pending : ∀ p timer, q.timers p = some timer → p ∉ held →
    ∃ n, (n, ⟨toLongLong timer.expire, p⟩) ∈ nodes

theorem Links.congr (h : Links q held nodes) (tree : q'.tree = q.tree) (timers : q'.timers = q.timers) :
    Links q' held nodes := by
  obtain ⟨search, stored, pending⟩ := h
  rw [← tree] at search
  rw [← timers] at stored pending
  exact ⟨search, stored, pending⟩

/-- Held timers may be written and deleted. -/
theorem Links.put (h : Links q held nodes) (outside : p ∈ held) (t : Option (Timer Ptr)) :
    Links (q.put p t) held nodes := by
  refine ⟨h.search, fun n e member => ?_, fun x timer here free => ?_⟩
  · obtain ⟨free, linked⟩ := h.stored n e member
    have other : e.val ≠ p := fun same => free (same ▸ outside)
    rw [put_timers, Function.update_of_ne other]
    exact ⟨free, linked⟩
  · have other : x ≠ p := fun same => free (same ▸ outside)
    rw [put_timers, Function.update_of_ne other] at here
    exact h.pending x timer here free

theorem Links.release (h : Links q (p :: held) nodes) (gone : q.timers p = none) :
    Links q held nodes := by
  refine ⟨h.search, fun n e member => ?_, fun x timer here free => ?_⟩
  · obtain ⟨free, linked⟩ := h.stored n e member
    exact ⟨fun member => free (List.mem_cons_of_mem p member), linked⟩
  · refine h.pending x timer here fun member => ?_
    rcases List.mem_cons.mp member with rfl | member
    · rw [gone] at here
      cases here
    · exact free member

/-- A new timer is held until it is placed. -/
theorem Links.created (h : Links q held nodes) (refs : Refs q) (timer : Timer Ptr) :
    Links (q.created timer) (q.allocated :: held) nodes := by
  refine ⟨h.search, fun n e member => ?_, fun x timer' here free => ?_⟩
  · obtain ⟨free, old, here, linked⟩ := h.stored n e member
    have other : e.val ≠ q.allocated := Nat.ne_of_lt (refs.known _ old here).1
    rw [created_timers, if_neg other]
    refine ⟨?_, old, here, linked⟩
    rw [List.mem_cons, not_or]
    exact ⟨other, free⟩
  · rw [List.mem_cons, not_or] at free
    rw [created_timers, if_neg free.1] at here
    exact h.pending x timer' here free.2

theorem Links.same_node (h : Links q held nodes) {n m : Nat} {e f : Entry Nat}
    (first : (n, e) ∈ nodes) (second : (m, f) ∈ nodes) (same : e.val = f.val) : (n, e) = (m, f) := by
  obtain ⟨_, timer, here, attach, key⟩ := h.stored n e first
  obtain ⟨_, timer', here', attach', key'⟩ := h.stored m f second
  rw [same, here', Option.some.injEq] at here
  subst here
  obtain ⟨k, v⟩ := e
  obtain ⟨k', v'⟩ := f
  cases attach.symm.trans attach'
  obtain rfl : k = k' := key.trans key'.symm
  obtain rfl : v = v' := same
  rfl

theorem Links.nodup (h : Links q held nodes) : nodes.Nodup :=
  List.Nodup.of_map Prod.fst h.search.weaken.distinct

theorem Links.distinct (h : Links q held nodes) : (nodes.map fun x => x.2.val).Nodup :=
  List.Nodup.map_on (fun _ first _ second same => h.same_node first second same) h.nodup

/-- No node of the tree has the key. -/
def NewKey (t : Rbtree Nat) (key : Int) : Prop := ∀ n e, t.InTree n e → e.key ≠ key

theorem newKey_iff (h : q.tree.Nodes nodes) {key : Int} :
    NewKey q.tree key ↔ key ∉ keys Entry.key nodes := by
  simp only [NewKey, h.inTree_iff, keys, List.mem_map, not_exists, not_and]
  exact ⟨fun free x member => free x.1 x.2 member, fun free n e member => free (n, e) member⟩

/-- A check of `NewKey` on a valid tree. -/
def freeKey (t : Rbtree Nat) (key : Int) : Bool :=
  t.readNodes.any fun nodes => key ∉ keys Entry.key nodes

theorem freeKey_sound {t : Rbtree Nat} {key : Int} (free : freeKey t key = true) : NewKey t key := by
  obtain ⟨nodes, found, absent⟩ := (Option.any_eq_true _ _).mp free
  intro n e inTree same
  have member := (Rbtree.readNodes_search found).weaken.inTree_iff.mp inTree
  exact of_decide_eq_true absent (List.mem_map.mpr ⟨(n, e), member, same⟩)

theorem least_node {t : Rbtree Nat} {i : Nat} {e : Entry Nat} (h : t.Nodes ((i, e) :: nodes)) :
    minNode t = .ok (.at i) ∧ entryOf t (.at i) = .ok e := by
  obtain ⟨n, read, same⟩ := h.get (i := i) (e := e) List.mem_cons_self
  refine ⟨h.min_cons, ?_⟩
  change (t.get (.at i) >>= fun n => pure n.entry) = _
  rw [read, ok_bind, same, pure_ok]

theorem Links.insert (h : Links q (p :: held) nodes) (free : p ∉ held)
    (key : NewKey q.tree (toLongLong (q.expireOf timer))) {tree : Rbtree Nat} {n : Ptr}
    (inserted : insertTimer q.tree (toLongLong (q.expireOf timer)) p = .ok (tree, n)) (fd : Timerfd) :
    ∃ nodes', Links (q.placed p timer tree n fd) held nodes' ∧ nodes' ≠ [] ∧ ∀ x, x ∈ nodes' ↔
      x = (q.tree.fresh, ⟨toLongLong (q.expireOf timer), p⟩) ∨ x ∈ nodes := by
  obtain ⟨tree', front, back, run, whole, search, _⟩ :=
    h.search.insert p ((newKey_iff h.search.weaken).mp key)
  have same : q.tree.insert (toLongLong (q.expireOf timer)) p = .ok (tree, n) := inserted
  cases run.symm.trans same
  have members (x : Nat × Entry Nat) : x ∈ front ++
      (q.tree.fresh, ⟨toLongLong (q.expireOf timer), p⟩) :: back ↔
        x = (q.tree.fresh, ⟨toLongLong (q.expireOf timer), p⟩) ∨ x ∈ nodes := by
    simp only [whole, List.mem_append, List.mem_cons]
    exact or_left_comm
  refine ⟨_, ⟨search, fun n e member => ?_, fun x timer' there outside => ?_⟩, by simp, members⟩
  · rw [placed_timers]
    rcases (members _).mp member with new | old
    · cases new
      exact ⟨free, _, Function.update_self .., rfl, rfl⟩
    · obtain ⟨outside, linked⟩ := h.stored n e old
      rw [List.mem_cons, not_or] at outside
      rw [Function.update_of_ne outside.1]
      exact ⟨outside.2, linked⟩
  · rw [placed_timers] at there
    by_cases same : x = p
    · subst same
      rw [Function.update_self, Option.some.injEq] at there
      subst there
      exact ⟨_, (members _).mpr (.inl rfl)⟩
    · rw [Function.update_of_ne same] at there
      obtain ⟨n, member⟩ := h.pending x timer' there (by simp [same, outside])
      exact ⟨n, (members _).mpr (.inr member)⟩

theorem Links.place (h : Links q (p :: held) nodes) (here : q.timers p = some timer) (free : p ∉ held)
    (key : NewKey q.tree (toLongLong (q.expireOf timer))) : ∃ tree n fd,
      insertTimer q.tree (toLongLong (q.expireOf timer)) p = .ok (tree, n) ∧
      q.addTimer p = .ok (q.placed p timer tree n fd) := by
  obtain ⟨tree, _, _, run, _⟩ := h.search.insert p ((newKey_iff h.search.weaken).mp key)
  have put : insertTimer q.tree (toLongLong (q.expireOf timer)) p = .ok (tree, .at q.tree.fresh) := run
  obtain ⟨nodes', links, some_, _⟩ := h.insert free key put .off
  obtain ⟨⟨i, e⟩, rest, rfl⟩ := List.exists_cons_of_ne_nil some_
  obtain ⟨least, entry⟩ := least_node links.search.weaken
  have minimum : minNode tree = .ok (.at i) := least
  have first : entryOf tree (Ptr.at i) = .ok e := entry
  have start : q.addTimer p = (do
      let (tree, n) ← lift (insertTimer q.tree (toLongLong (q.expireOf timer)) p)
      let q' := { q.put p (some { timer with expire := q.expireOf timer, attach := some n }) with tree }
      let least ← lift (minNode q'.tree)
      if toLongLong (q.expireOf timer) ≤ (← lift (entryOf q'.tree least)).key then
        return q'.resetTimerfd (q'.ownEpoch + q.expireOf timer)
      else return q') := by
    unfold addTimer
    rw [get_of_some here]
    rfl
  refine ⟨tree, _, if toLongLong (q.expireOf timer) ≤ e.key then
    .arm (q.ownEpoch + q.expireOf timer) q.clock else q.timerfd, put, ?_⟩
  rw [start, put]
  simp only [lift, ok_bind, minimum, first]
  split
  · rfl
  · rfl

theorem mem_without {α : Type} {front back : List α} {x y : α} (distinct : (front ++ y :: back).Nodup) :
    x ∈ front ++ back ↔ x ∈ front ++ y :: back ∧ x ≠ y := by
  rw [List.nodup_append, List.nodup_cons] at distinct
  obtain ⟨_, ⟨right, _⟩, left⟩ := distinct
  simp only [List.mem_append, List.mem_cons]
  constructor
  · rintro (first | last)
    · exact ⟨.inl first, left x first y List.mem_cons_self⟩
    · exact ⟨.inr (.inr last), fun same => right (same ▸ last)⟩
  · rintro ⟨first | same | last, other⟩
    · exact .inl first
    · exact absurd same other
    · exact .inr last

/-- A node leaves the tree, and its timer is held and written, or deleted. -/
theorem Links.remove (front : List (Nat × Entry Nat)) {back : List (Nat × Entry Nat)} {i : Nat}
    {e : Entry Nat} (h : Links q held (front ++ (i, e) :: back)) {tree : Rbtree Nat}
    (search : tree.Search (front ++ back)) (t : Option (Timer Ptr)) :
    Links ({ q with tree }.put e.val t) (e.val :: held) (front ++ back) := by
  have here : (i, e) ∈ front ++ (i, e) :: back := by simp
  have left {x : Nat × Entry Nat} := mem_without (x := x) h.nodup
  refine ⟨search, fun n f member => ?_, fun x timer there outside => ?_⟩
  · obtain ⟨member, differs⟩ := left.mp member
    obtain ⟨outside, linked⟩ := h.stored n f member
    have other : f.val ≠ e.val := fun same => differs (h.same_node member here same)
    rw [put_timers, Function.update_of_ne other, List.mem_cons, not_or]
    exact ⟨⟨other, outside⟩, linked⟩
  · rw [List.mem_cons, not_or] at outside
    rw [put_timers, Function.update_of_ne outside.1] at there
    obtain ⟨n, member⟩ := h.pending x timer there outside.2
    exact ⟨n, left.mpr ⟨member, fun same => outside.1 (congrArg (fun x => x.2.val) same)⟩⟩

theorem Links.keyed (h : Links q held nodes) : Keyed q nodes := by
  refine ⟨h.search, fun x member => ?_⟩
  obtain ⟨_, timer, here, _, key⟩ := h.stored x.1 x.2 member
  exact ⟨timer, here, key⟩

/-- The first loop of `PerTick` takes the timers before the first one that is not due. -/
theorem Links.collect (h : Links q held nodes) (now : UInt64) {fuel : Nat}
    (enough : nodes.length < fuel) (expired : List Nat) : ∃ q' front back, nodes = front ++ back ∧
      collect now fuel q expired = .ok (q', expired ++ front.map fun x => x.2.val) ∧
      Links q' ((front.map fun x => x.2.val) ++ held) back ∧
      (∀ x timer, x ∈ front → q.timers x.2.val = some timer → timer.expire < now) ∧
      ∀ x rest timer, back = x :: rest → q.timers x.2.val = some timer → ¬ timer.expire < now := by
  obtain ⟨q', front, back, rfl, run, keyed, takes, stops⟩ := h.keyed.collect now enough expired
  obtain ⟨taken, same, collected⟩ := collect_ok run
  cases List.append_cancel_left same
  have distinct := h.distinct
  rw [List.map_append, List.nodup_append] at distinct
  refine ⟨q', front, back, rfl, run, ⟨keyed.search, fun n e member => ?_, fun p timer here outside => ?_⟩,
    takes, stops⟩
  · obtain ⟨free, linked⟩ := h.stored n e (List.mem_append_right _ member)
    have kept : e.val ∉ front.map fun x => x.2.val := fun taken =>
      distinct.2.2 _ taken _ (List.mem_map_of_mem (f := fun x => x.2.val) member) rfl
    rw [List.mem_append, not_or, collected.others _ kept]
    exact ⟨⟨kept, free⟩, linked⟩
  · rw [List.mem_append, not_or] at outside
    rw [collected.others _ outside.1] at here
    obtain ⟨n, member⟩ := h.pending p timer here outside.2
    refine ⟨n, (List.mem_append.mp member).resolve_left fun early => outside.1 ?_⟩
    exact List.mem_map_of_mem (f := fun x => x.2.val) early

theorem Links.expires (h : Links q [] nodes) : ∃ q' batch, q.expiredTimers = .ok (q', batch) := by
  obtain ⟨q', front, back, _, run, _⟩ :=
    h.collect (q.clock - q.ownEpoch) h.search.weaken.length_lt []
  exact ⟨q', _, run⟩

theorem Links.rearms (h : Links q held nodes) : ∃ q', q.rearm = .ok q' := by
  have waits : ∃ expire, q.waitTimeUsec = .ok expire := by
    cases nodes with
    | nil =>
      have least : minNode q.tree = .ok q.tree.nil := h.search.weaken.min_nil
      have none : isNil q.tree q.tree.nil = true := decide_eq_true rfl
      exact ⟨-1, by simp only [waitTimeUsec, least, lift, ok_bind, none, if_true, pure_ok]⟩
    | cons x rest =>
      obtain ⟨i, e⟩ := x
      obtain ⟨least, entry⟩ := least_node h.search.weaken
      have some_ : isNil q.tree (Ptr.at i) = false :=
        decide_eq_false (h.search.weaken.not_nil List.mem_cons_self)
      obtain ⟨_, timer, here, _⟩ := h.stored i e List.mem_cons_self
      refine ⟨timer.expire.toInt64, ?_⟩
      simp only [waitTimeUsec, least, lift, ok_bind, some_, entry, Bool.false_eq_true, if_false,
        get_of_some here, pure_ok]
  obtain ⟨expire, waits⟩ := waits
  rw [rearm, waits, ok_bind]
  split
  · exact ⟨_, rfl⟩
  · exact ⟨_, rfl⟩

/-- Cancelling a timer takes exactly its entry out of the tree. Whether the links of the others
survive depends on the children of its node. -/
theorem Links.cancel (h : Links q held nodes) {id : Int} (known : q.ref.lookup id = some (some p))
    (here : q.timers p = some timer) (outside : p ∉ held) : ∃ i front back tree,
      nodes = front ++ (i, ⟨toLongLong timer.expire, p⟩) :: back ∧ timer.attach = some (.at i) ∧
      deleteNode q.tree (Ptr.at i) = .ok tree ∧
      q.cancelTimer id = .ok ({ q with tree }.put p none, true) ∧
      (q.tree.Lone i → tree.Nodes (front ++ back)) ∧
      (¬ q.tree.Lone i → ∃ next rest, back = next :: rest ∧
        tree.Nodes (front ++ (i, next.2) :: rest)) ∧
      (q.tree.Lone i → q.tree.Straight i → Links ({ q with tree }.put p none) held (front ++ back)) := by
  obtain ⟨i, member⟩ := h.pending p timer here outside
  obtain ⟨_, timer', here', attach, _⟩ := h.stored i _ member
  cases here.symm.trans here'
  obtain ⟨tree, front, back, deleted, rfl, _, one, two, valid⟩ := h.search.delete member
  refine ⟨i, front, back, tree, rfl, attach, deleted, ?_, one, two, fun lone straight => ?_⟩
  · have run : q.cancelTimer id = (do
        let timer ← q.get p
        let q ← q.detach timer.attach
        return (q.put p none, true)) := by
      unfold cancelTimer
      rw [known]
    have gone : deleteNode q.tree (Ptr.at i) = .ok tree := deleted
    simp only [run, get_of_some here, ok_bind, attach, detach, gone, lift, pure_ok]
  · have left : Links ({ q with tree }.put p none) (p :: held) (front ++ back) :=
      remove front h (valid straight _ (one lone)) none
    exact left.release (Function.update_self ..)

/-- The timer is in the tree. -/
def Stores (t : Rbtree Nat) (p : Nat) : Prop := ∃ n e, t.InTree n e ∧ e.val = p

theorem stores_iff {t : Rbtree Nat} (h : t.Nodes nodes) :
    Stores t p ↔ p ∈ nodes.map fun x => x.2.val := by
  simp only [Stores, h.inTree_iff, List.mem_map, Prod.exists]

end Yamq.TimerQueue

namespace Yamq.TimerLoop

open Transition TimerQueue

variable {l l' : TimerLoop (Rbtree Nat) Ptr} {op : TimerOp}

/-- Insertions find a new key, and only pending timers are cancelled, whose nodes have at most one
child and go without the faulty last case. -/
def Gentle (l : TimerLoop (Rbtree Nat) Ptr) : TimerOp → Prop
  | .addTimer time _ _ => NewKey l.queue.tree (toLongLong (l.queue.clock - l.queue.ownEpoch + time))
  | .cancelTimer id => ∃ p timer n, l.queue.ref.lookup id = some (some p) ∧ p ∉ l.pc.batch ∧
      l.queue.timers p = some timer ∧ timer.attach = some (.at n) ∧
      l.queue.tree.Lone n ∧ l.queue.tree.Straight n
  | .return_ => ∀ p rest handling timer, l.pc = .calling p rest handling →
      l.queue.timers p = some timer → 0 < timer.elapse →
      NewKey l.queue.tree (toLongLong (l.queue.expireOf timer))
  | _ => True

/-- A check of `Gentle`. -/
def gently (l : TimerLoop (Rbtree Nat) Ptr) : TimerOp → Bool
  | .addTimer time _ _ => freeKey l.queue.tree (toLongLong (l.queue.clock - l.queue.ownEpoch + time))
  | .cancelTimer id =>
    (l.queue.ref.lookup id).join.any fun p => p ∉ l.pc.batch ∧ (l.queue.timers p).any fun timer =>
      match timer.attach with
      | some (.at n) => l.queue.tree.goesWell n
      | _ => false
  | .return_ =>
    match l.pc with
    | .calling p _ _ => (l.queue.timers p).all fun timer =>
      freeKey l.queue.tree (toLongLong (l.queue.expireOf timer))
    | _ => true
  | _ => true

theorem gently_sound (l : TimerLoop (Rbtree Nat) Ptr) (op : TimerOp) (check : gently l op = true) :
    Gentle l op := by
  cases op with
  | addTimer time interval cb => exact freeKey_sound check
  | cancelTimer id =>
    obtain ⟨p, known, check⟩ := (Option.any_eq_true _ _).mp check
    obtain ⟨outside, check⟩ := of_decide_eq_true check
    obtain ⟨timer, here, check⟩ := (Option.any_eq_true _ _).mp check
    split at check
    · rename_i n attach
      obtain ⟨lone, straight⟩ := Rbtree.goesWell_sound check
      exact ⟨p, timer, n, Option.join_eq_some_iff.mp known, outside, here, attach, lone, straight⟩
    · cases check
  | return_ =>
    intro p rest handling timer pc here _
    simp only [gently, pc, here, Option.all_some] at check
    exact freeKey_sound check
  | clock now => trivial
  | perTick => trivial
  | handleRead => trivial
  | visit => trivial

theorem reaches_gently {s l : TimerLoop (Rbtree Nat) Ptr} (ops : List TimerOp)
    (run : ops.foldlM (fun l op => if gently l op then next l op else none) s = some l) :
    Reaches Steps Gentle s l :=
  .of_checked next gently gently_sound ops run

/-- What such steps keep. The timers that `PerTick` holds are outside the tree. -/
structure Linking (l : TimerLoop (Rbtree Nat) Ptr) : Prop where
  refs : Refs l.queue
  links : ∃ nodes, Links l.queue l.pc.batch nodes
  distinct : l.pc.batch.Nodup
  young : ∀ p ∈ l.pc.batch, p < l.queue.allocated
  live : ∀ p ∈ l.pc.batch, (l.queue.timers p).isSome

theorem start_linking (clock : UInt64) : Linking (start (Rbtree.create 0) clock) :=
  ⟨start_refs .., ⟨[], Rbtree.create_search 0, nofun, nofun⟩, List.nodup_nil, nofun, nofun⟩

theorem Linking.tick (h : Linking l) (idle : l.pc = .idle) {q q' : TimerQueue (Rbtree Nat) Ptr}
    {batch : List Nat} (tree : q.tree = l.queue.tree) (timers : q.timers = l.queue.timers)
    (allocated : q'.allocated = l.queue.allocated) (run : q.expiredTimers = .ok (q', batch)) :
    (∃ nodes, Links q' batch nodes) ∧ batch.Nodup ∧ (∀ p ∈ batch, p < q'.allocated) ∧
      ∀ p ∈ batch, (q'.timers p).isSome := by
  obtain ⟨nodes, links⟩ := h.links
  rw [idle] at links
  have start : Links q [] nodes := links.congr tree timers
  obtain ⟨q₁, front, back, rfl, taken, last, _⟩ := start.collect _ start.search.weaken.length_lt []
  cases taken.symm.trans run
  rw [List.append_nil] at last
  have distinct := start.distinct
  rw [List.map_append, List.nodup_append] at distinct
  refine ⟨⟨back, last⟩, distinct.1, fun p member => ?_, fun p member => ?_⟩
  · rw [List.nil_append, List.mem_map] at member
    obtain ⟨⟨i, e⟩, member, rfl⟩ := member
    obtain ⟨_, timer, here, _⟩ := start.stored i e (List.mem_append_left _ member)
    rw [allocated]
    exact (h.refs.known _ timer (timers ▸ here)).1
  · obtain ⟨_, same, collected⟩ := collect_ok taken
    cases List.append_cancel_left same
    rw [List.nil_append] at member
    obtain ⟨_, _, _, left⟩ := collected.due p member
    exact Option.isSome_iff_exists.mpr ⟨_, left⟩

theorem Linking.step (h : Linking l) (gentle : Gentle l op) (steps : Steps l op l') : Linking l' := by
  have refs := refs_step h.refs steps
  cases step_effect steps with
  | clock now =>
    obtain ⟨nodes, links⟩ := h.links
    exact ⟨refs, ⟨nodes, links.congr rfl rfl⟩, h.distinct, h.young, h.live⟩
  | @added time interval cb id tree n fd calls free inserted =>
    obtain ⟨nodes, links⟩ := h.links
    have held := links.created h.refs (newTimer id time interval cb)
    have old (member : l.queue.allocated ∈ l.pc.batch) : False :=
      Nat.lt_irrefl _ (h.young _ member)
    have key : NewKey (l.queue.created (newTimer (N := Ptr) id time interval cb)).tree
      (toLongLong (expireOf (l.queue.created (newTimer id time interval cb))
        (newTimer (N := Ptr) id time interval cb))) := gentle
    obtain ⟨nodes', placed, _⟩ := held.insert old key inserted.inserted fd
    refine ⟨refs, ⟨nodes', placed⟩, h.distinct, fun x member => Nat.lt_succ_of_lt (h.young x member),
      fun x member => ?_⟩
    have other := Nat.ne_of_lt (h.young x member)
    rw [placed_timers, Function.update_of_ne other, created_timers, if_neg other]
    exact h.live x member
  | unknown _ _ nothing =>
    obtain ⟨p, _, _, known, _⟩ := gentle
    exact absurd known (nothing p)
  | @cancelled id p timer tree _ known here deleted =>
    obtain ⟨nodes, links⟩ := h.links
    obtain ⟨x, timer', n, known', outside, here', attach, lone, straight⟩ := gentle
    cases known.symm.trans known'
    cases here.symm.trans here'
    obtain ⟨i, front, back, tree', _, attach', gone, _, _, _, kept⟩ := links.cancel known here outside
    cases attach.symm.trans attach'
    cases (deleted _ attach).symm.trans gone
    refine ⟨refs, ⟨_, kept lone straight⟩, h.distinct, h.young, fun x member => ?_⟩
    rw [put_timers, Function.update_of_ne (ne_of_mem_of_not_mem member outside)]
    exact h.live x member
  | ticked idle run =>
    obtain ⟨_, _, collected⟩ := collect_ok run
    obtain ⟨links, distinct, young, live⟩ := h.tick idle rfl rfl collected.same.allocated run
    exact ⟨refs, links, distinct, young, live⟩
  | read idle readable run =>
    obtain ⟨_, _, collected⟩ := collect_ok run
    obtain ⟨links, distinct, young, live⟩ := h.tick (q := { l.queue with timerfd := .off }) idle rfl rfl
      collected.same.allocated run
    exact ⟨refs, links, distinct, young, live⟩
  | finished pc =>
    obtain ⟨nodes, links⟩ := h.links
    rw [pc] at links
    exact ⟨refs, ⟨nodes, links⟩, List.nodup_nil, nofun, nofun⟩
  | rearmed pc run =>
    obtain ⟨nodes, links⟩ := h.links
    rw [pc] at links
    obtain ⟨fd, rfl⟩ := rearm_ok run
    exact ⟨refs, ⟨nodes, links.congr rfl rfl⟩, List.nodup_nil, nofun, nofun⟩
  | fired pc here =>
    obtain ⟨_, ⟨nodes, links⟩, distinct, young, live⟩ := h
    rw [pc] at links distinct young live
    exact ⟨refs, ⟨nodes, links.put List.mem_cons_self _⟩, distinct, young,
      fun x member => live_put (live x member)⟩
  | dropped pc here =>
    obtain ⟨_, ⟨nodes, links⟩, distinct, young, live⟩ := h
    rw [pc] at links distinct young live
    have left := links.put List.mem_cons_self none
    obtain ⟨outside, distinct⟩ := List.nodup_cons.mp distinct
    refine ⟨refs, ⟨nodes, left.release (Function.update_self ..)⟩, distinct,
      fun x member => young x (List.mem_cons_of_mem _ member), fun x member => ?_⟩
    rw [put_timers, Function.update_of_ne (ne_of_mem_of_not_mem member outside)]
    exact live x (List.mem_cons_of_mem _ member)
  | @readded p rest handling timer tree n fd pc here more inserted =>
    obtain ⟨_, ⟨nodes, links⟩, distinct, young, live⟩ := h
    have key := gentle p rest handling timer pc here more
    rw [pc] at links distinct young live
    obtain ⟨outside, distinct⟩ := List.nodup_cons.mp distinct
    obtain ⟨nodes', placed, _⟩ := links.insert outside key inserted.inserted fd
    refine ⟨refs, ⟨nodes', placed⟩, distinct, fun x member => young x (List.mem_cons_of_mem _ member),
      fun x member => ?_⟩
    rw [placed_timers, Function.update_of_ne (ne_of_mem_of_not_mem member outside)]
    exact live x (List.mem_cons_of_mem _ member)
  | ended pc here =>
    obtain ⟨_, ⟨nodes, links⟩, distinct, young, live⟩ := h
    rw [pc] at links distinct young live
    have left := links.put List.mem_cons_self none
    obtain ⟨outside, distinct⟩ := List.nodup_cons.mp distinct
    refine ⟨refs, ⟨nodes, left.release (Function.update_self ..)⟩, distinct,
      fun x member => young x (List.mem_cons_of_mem _ member), fun x member => ?_⟩
    rw [put_timers, Function.update_of_ne (ne_of_mem_of_not_mem member outside)]
    exact live x (List.mem_cons_of_mem _ member)

/-- A tick ends no process: each of its steps succeeds, and so do the re-arming of its timers and of the
timerfd. -/
theorem Linking.goes (h : Linking l) (gentle : Gentle l op) (ticks : op = .perTick ∨ op = .visit ∨
    op = .return_ ∨ op = .handleRead ∧ l.queue.timerfd = .readable) (halt : Halt) :
    l.step op ≠ some (.error halt) := by
  obtain ⟨nodes, links⟩ := h.links
  rcases ticks with rfl | rfl | rfl | ⟨rfl, readable⟩
  · by_cases idle : l.pc = .idle
    · rw [idle] at links
      obtain ⟨q', batch, run⟩ := links.expires
      simp only [TimerLoop.step, if_pos idle, startTick, run, ok_bind, pure_ok]
      rintro ⟨⟩
    · simp only [TimerLoop.step, if_neg idle]
      rintro ⟨⟩
  · cases pc : l.pc with
    | idle => simp [TimerLoop.step, pc]
    | calling => simp [TimerLoop.step, pc]
    | visiting rest handling =>
      cases rest with
      | nil =>
        cases handling with
        | false => simp [TimerLoop.step, pc]
        | true =>
          obtain ⟨q', run⟩ := links.rearms
          simp only [TimerLoop.step, pc, run, ok_bind, pure_ok]
          rintro ⟨⟩
      | cons p rest =>
        obtain ⟨timer, here⟩ := Option.isSome_iff_exists.mp (h.live p (by simp [pc, TickPc.batch]))
        simp only [TimerLoop.step, pc, visitTimer, get_of_some here, ok_bind]
        split
        · rintro ⟨⟩
        · rintro ⟨⟩
  · cases pc : l.pc with
    | idle => simp [TimerLoop.step, pc]
    | visiting => simp [TimerLoop.step, pc]
    | calling p rest handling =>
      obtain ⟨timer, here⟩ := Option.isSome_iff_exists.mp (h.live p (by simp [pc, TickPc.batch]))
      have distinct := h.distinct
      rw [pc] at links distinct
      simp only [TimerLoop.step, pc, returnTo, get_of_some here, ok_bind]
      split
      · rename_i more
        obtain ⟨tree, n, fd, _, placed⟩ := links.place here (List.nodup_cons.mp distinct).1
          (gentle p rest handling timer pc here more)
        rw [placed]
        rintro ⟨⟩
      · rintro ⟨⟩
  · by_cases idle : l.pc = .idle
    · rw [idle] at links
      have same : Links { l.queue with timerfd := .off } [] nodes := links.congr rfl rfl
      obtain ⟨q', batch, run⟩ := same.expires
      simp only [TimerLoop.step, if_pos idle, readTimerfd, if_pos readable, startTick, run, ok_bind, pure_ok]
      rintro ⟨⟩
    · simp only [TimerLoop.step, if_neg idle]
      rintro ⟨⟩

end Yamq.TimerLoop
