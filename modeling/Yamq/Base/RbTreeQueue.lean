import Yamq.Base.RbTreeHandles
import Yamq.Base.RbTreeSuccessor
import Yamq.Base.RbTreeValidity
import Yamq.Lib.SortedMap

/-! The tree as its users see it: a map from keys to values whose least pair can be taken out. A caller
keeps the first node that it gets for a key. -/
namespace Yamq

open RedBlack Transition

structure RbQueue (V : Type) where
  tree : Rbtree V
  handles : Int → Option Ptr

inductive QueueOp (V : Type) where
  | insert (key : Int) (val : V)   -- `rbtree_insert`
  | least                          -- `rbtree_min`
  | greatest                       -- `rbtree_max`
  | next (key : Int)               -- `rbtree_successor`
  | takeLeast                      -- `rbtree_min`, then `rbtree_delete`
  | remove (key : Int)             -- `rbtree_delete`

variable {V : Type}

/-- The same on a sorted map. -/
def QueueOp.apply (m : List (Int × V)) : QueueOp V → Option (Int × V) × List (Int × V)
  | .insert key val => (none, if key ∈ m.map Prod.fst then m else SortedMap.insert key val m)
  | .least => (m.head?, m)
  | .greatest => (m.getLast?, m)
  | .next key => (if key ∈ m.map Prod.fst then m.find? (key < ·.1) else none, m)
  | .takeLeast => (m.head?, m.tail)
  | .remove key => (m.find? (·.1 = key), SortedMap.erase key m)

def QueueOp.evaluate (m : List (Int × V)) :
    List (QueueOp V) → List (Option (Int × V)) × List (Int × V)
  | [] => ([], m)
  | op :: ops =>
    let (answers, m') := evaluate (op.apply m).2 ops
    ((op.apply m).1 :: answers, m')

theorem QueueOp.evaluate_concat (m : List (Int × V)) (ops : List (QueueOp V)) (op : QueueOp V) :
    evaluate m (ops ++ [op]) = ((evaluate m ops).1 ++ [(op.apply (evaluate m ops).2).1],
      (op.apply (evaluate m ops).2).2) := by
  induction ops generalizing m with
  | nil => rfl
  | cons first ops ih =>
    rw [List.cons_append, evaluate, ih]
    rfl

namespace RbQueue

def start (unset : V) : RbQueue V := ⟨.create unset, fun _ => none⟩

/-- What a caller reads at a node. -/
def pairAt (t : Rbtree V) (p : Ptr) : Except Fault (Option (Int × V)) :=
  if p = t.nil then .ok none
  else do
    let n ← t.get p
    return some (n.entry.key, n.entry.val)

def run (q : RbQueue V) : QueueOp V → Except Fault (Option (Int × V) × RbQueue V)
  | .insert key val => do
    let (tree, p) ← q.tree.insert key val
    match q.handles key with
    | none => return (none, ⟨tree, Function.update q.handles key (some p)⟩)
    | some _ => return (none, ⟨tree, q.handles⟩)
  | .least => do return (← pairAt q.tree (← q.tree.min), q)
  | .greatest => do return (← pairAt q.tree (← q.tree.max), q)
  | .next key =>
    match q.handles key with
    | none => .ok (none, q)
    | some p => do return (← pairAt q.tree (← q.tree.successor p), q)
  | .takeLeast => do
    let p ← q.tree.min
    match ← pairAt q.tree p with
    | none => return (none, q)
    | some x => do
      let tree ← q.tree.delete p
      return (some x, ⟨tree, Function.update q.handles x.1 none⟩)
  | .remove key =>
    match q.handles key with
    | none => .ok (none, q)
    | some p => do
      let x ← pairAt q.tree p
      let tree ← q.tree.delete p
      return (x, ⟨tree, Function.update q.handles key none⟩)

/-- A removal takes out a node with at most one child and does not take the last case of the repair on
the right side, and `rbtree_successor` is not asked at the greatest node, unless that is the root. Nothing
is asked of the other calls. -/
def Gentle (q : RbQueue V) : QueueOp V → Prop
  | .remove key => ∀ i, q.handles key = some (.at i) → q.tree.Lone i ∧ q.tree.Straight i
  | .next key => ∀ p, q.handles key = some p → q.tree.max = .ok p → q.tree.root = p
  | _ => True

def pair (x : Nat × Entry V) : Int × V := (x.2.key, x.2.val)

/-- The tree holds these nodes, and the caller's handle of a key is the node of the key. -/
structure Mirrors (q : RbQueue V) (nodes : List (Nat × Entry V)) : Prop where
  search : q.tree.Search nodes
  handles : ∀ key p, q.handles key = some p ↔ ∃ i v, p = .at i ∧ (i, ⟨key, v⟩) ∈ nodes

variable {q : RbQueue V} {nodes front back : List (Nat × Entry V)} {key : Int} {i : Nat} {v : V}

theorem start_mirrors (unset : V) : Mirrors (start unset) [] :=
  ⟨Rbtree.create_search unset, fun _ _ => ⟨nofun, nofun⟩⟩

theorem keys_pair (nodes : List (Nat × Entry V)) :
    (nodes.map pair).map Prod.fst = keys Entry.key nodes := List.map_map ..

theorem Mirrors.sorted (h : Mirrors q nodes) : SortedMap.Sorted (nodes.map pair) := by
  have ordered := h.search.ordered
  rw [← keys_pair] at ordered
  exact List.pairwise_map.mp ordered

theorem Mirrors.unknown (h : Mirrors q nodes) :
    q.handles key = none ↔ key ∉ (nodes.map pair).map Prod.fst := by
  rw [keys_pair, Option.eq_none_iff_forall_ne_some]
  constructor
  · intro none member
    obtain ⟨⟨i, e⟩, here, rfl⟩ := List.mem_map.mp member
    exact none _ ((h.handles _ _).mpr ⟨i, e.val, rfl, here⟩)
  · intro absent p found
    obtain ⟨i, v, _, here⟩ := (h.handles _ _).mp found
    exact absent (List.mem_map_of_mem (f := fun x : Nat × Entry V => x.2.key) here)

/-- The node of a key, and what stands before it and behind. -/
theorem Mirrors.known (h : Mirrors q nodes) {p : Ptr} (found : q.handles key = some p) :
    ∃ i v front back, p = .at i ∧ nodes = front ++ (i, ⟨key, v⟩) :: back := by
  obtain ⟨i, v, rfl, here⟩ := (h.handles _ _).mp found
  obtain ⟨front, back, rfl⟩ := List.append_of_mem here
  exact ⟨i, v, front, back, rfl, rfl⟩

theorem pairAt_nil (t : Rbtree V) : pairAt t t.nil = .ok none := if_pos rfl

theorem pairAt_node {t : Rbtree V} (h : t.Search nodes) {x : Nat × Entry V} (member : x ∈ nodes) :
    pairAt t (.at x.1) = .ok (some (pair x)) := by
  obtain ⟨i, e⟩ := x
  obtain ⟨n, found, rfl⟩ := h.weaken.get member
  rw [pairAt, if_neg (h.weaken.not_nil member), found]
  rfl

/-- A call that returns, with its answer and what it leaves. -/
structure Leaves (q : RbQueue V) (nodes : List (Nat × Entry V)) (op : QueueOp V) (q' : RbQueue V)
    (nodes' : List (Nat × Entry V)) : Prop where
  run : q.run op = .ok ((op.apply (nodes.map pair)).1, q')
  mirrors : Mirrors q' nodes'
  pairs : nodes'.map pair = (op.apply (nodes.map pair)).2

/-- The nodes change by one key, which then has the handle `p`. -/
theorem Mirrors.update (h : Mirrors q nodes) {t' : Rbtree V} {nodes' : List (Nat × Entry V)}
    (search : t'.Search nodes') {key : Int} {p : Option Ptr}
    (here : ∀ r, p = some r ↔ ∃ i v, r = .at i ∧ (i, ⟨key, v⟩) ∈ nodes')
    (others : ∀ x : Nat × Entry V, x.2.key ≠ key → (x ∈ nodes' ↔ x ∈ nodes)) :
    Mirrors ⟨t', Function.update q.handles key p⟩ nodes' where
  search := search
  handles := by
    intro other r
    change Function.update q.handles key p other = some r ↔ _
    by_cases same : other = key
    · subst same
      rw [Function.update_self]
      exact here r
    · rw [Function.update_of_ne same, h.handles]
      simp only [others (_, ⟨other, _⟩) same]

theorem insert_spec (h : Mirrors q nodes) (key : Int) (val : V) :
    ∃ q' nodes', Leaves q nodes (.insert key val) q' nodes' := by
  cases found : q.handles key with
  | some p =>
    obtain ⟨i, v, front, back, rfl, rfl⟩ := h.known found
    have member : key ∈ ((front ++ (i, ⟨key, v⟩) :: back).map pair).map Prod.fst := by simp [pair]
    have known : key ∈ keys Entry.key (front ++ (i, ⟨key, v⟩) :: back) := keys_pair _ ▸ member
    obtain ⟨t', run, search⟩ := h.search.insert_known val known
    refine ⟨⟨t', q.handles⟩, _, ?_, ⟨search, h.handles⟩, ?_⟩
    · simp only [RbQueue.run, run, ok_bind, found, pure_ok, QueueOp.apply]
    · rw [QueueOp.apply, if_pos member]
  | none =>
    have absent := h.unknown.mp found
    have free : key ∉ keys Entry.key nodes := keys_pair nodes ▸ absent
    obtain ⟨t', front, back, run, rfl, search, _⟩ := h.search.insert val free
    have mirrors : Mirrors ⟨t', Function.update q.handles key (some (.at q.tree.fresh))⟩
        (front ++ (q.tree.fresh, ⟨key, val⟩) :: back) := by
      refine h.update search (fun r => ?_) fun x other => ?_
      · constructor
        · rintro ⟨⟩
          exact ⟨_, val, rfl, by simp⟩
        · rintro ⟨i, v, rfl, member⟩
          rcases List.mem_cons.mp (List.perm_middle.mem_iff.mp member) with same | old
          · cases same
            rfl
          · exact absurd (List.mem_map_of_mem (f := fun x : Nat × Entry V => x.2.key) old) free
      · rw [List.perm_middle.mem_iff, List.mem_cons]
        exact or_iff_right fun same => other (by rw [same])
    refine ⟨_, _, ?_, mirrors, ?_⟩
    · simp only [RbQueue.run, run, ok_bind, found, pure_ok, QueueOp.apply]
    · have sorted := mirrors.sorted
      rw [List.map_append, List.map_cons] at sorted
      rw [QueueOp.apply, if_neg absent, List.map_append, List.map_append, List.map_cons]
      exact sorted.insert_between.symm

/-- The node of a key goes. -/
theorem Mirrors.without (h : Mirrors q (front ++ (i, ⟨key, v⟩) :: back)) {t' : Rbtree V}
    (search : t'.Search (front ++ back)) :
    Mirrors ⟨t', Function.update q.handles key none⟩ (front ++ back) ∧
      (front ++ back).map pair = SortedMap.erase key ((front ++ (i, ⟨key, v⟩) :: back).map pair) := by
  have sorted := h.sorted
  rw [List.map_append, List.map_cons] at sorted
  have pairs : (front ++ back).map pair =
      SortedMap.erase key ((front ++ (i, ⟨key, v⟩) :: back).map pair) := by
    rw [List.map_append, List.map_append, List.map_cons]
    exact sorted.erase_between.symm
  refine ⟨h.update search (fun r => ⟨nofun, ?_⟩) fun x other => ?_, pairs⟩
  · rintro ⟨j, w, _, member⟩
    have left : (key, w) ∈ (front ++ back).map pair := List.mem_map_of_mem (f := pair) member
    rw [pairs] at left
    exact absurd rfl (SortedMap.mem_erase.mp left).2
  · have middle : x ∈ front ++ (i, ⟨key, v⟩) :: back ↔ x ∈ (i, ⟨key, v⟩) :: (front ++ back) :=
      List.perm_middle.mem_iff
    rw [middle, List.mem_cons]
    exact (or_iff_right fun same => other (by rw [same])).symm

theorem least_spec (h : Mirrors q nodes) : Leaves q nodes .least q nodes := by
  refine ⟨?_, h, rfl⟩
  cases nodes with
  | nil =>
    simp only [RbQueue.run, h.search.weaken.min_nil, ok_bind, pairAt_nil, pure_ok]
    rfl
  | cons x rest =>
    have read := pairAt_node h.search (List.mem_cons_self (a := x))
    simp only [RbQueue.run, h.search.weaken.min_cons, ok_bind, read, pure_ok]
    rfl

theorem greatest_spec (h : Mirrors q nodes) : Leaves q nodes .greatest q nodes := by
  refine ⟨?_, h, rfl⟩
  rcases List.eq_nil_or_concat' nodes with rfl | ⟨init, x, rfl⟩
  · have most : q.tree.max = .ok q.tree.nil := h.search.weaken.max_spec
    simp only [RbQueue.run, most, ok_bind, pairAt_nil, pure_ok]
    rfl
  · have read := pairAt_node h.search (List.mem_append_right init (List.mem_singleton_self x))
    simp only [RbQueue.run, h.search.weaken.max_concat, ok_bind, read, pure_ok]
    simp [QueueOp.apply]

theorem next_spec (h : Mirrors q nodes) {key : Int} (gentle : q.Gentle (.next key)) :
    Leaves q nodes (.next key) q nodes := by
  refine ⟨?_, h, rfl⟩
  cases found : q.handles key with
  | none => simp only [RbQueue.run, found, QueueOp.apply, if_neg (h.unknown.mp found)]
  | some p =>
    obtain ⟨i, v, front, back, rfl, rfl⟩ := h.known found
    have member : key ∈ ((front ++ (i, ⟨key, v⟩) :: back).map pair).map Prod.fst := by simp [pair]
    have sorted := h.sorted
    rw [List.map_append, List.map_cons] at sorted
    have behind : ((front ++ (i, ⟨key, v⟩) :: back).map pair).find? (key < ·.1) =
        (back.map pair).head? := by
      rw [List.map_append, List.map_cons]
      exact sorted.find_behind
    rw [QueueOp.apply, if_pos member, behind]
    have next := h.search.weaken.successor_eq
    cases back with
    | nil =>
      -- the greatest node is the root, and has no parent to climb to
      have root := gentle _ found (h.search.max_iff.mpr rfl)
      rw [if_neg (fun climbs => climbs.2 root)] at next
      simp only [RbQueue.run, found, next, ok_bind]
      rw [Rbtree.first, List.head?_nil, Option.map_none, Option.getD_none, pairAt_nil]
      rfl
    | cons y rest =>
      have read := pairAt_node h.search (x := y) (by simp)
      simp only [reduceCtorEq, false_and, if_false] at next
      simp only [RbQueue.run, found, next, ok_bind]
      rw [Rbtree.first, List.head?_cons, Option.map_some, Option.getD_some, read]
      rfl

theorem takeLeast_spec (h : Mirrors q nodes) : ∃ q' nodes', Leaves q nodes .takeLeast q' nodes' := by
  cases nodes with
  | nil =>
    refine ⟨q, [], ?_, h, rfl⟩
    simp only [RbQueue.run, h.search.weaken.min_nil, ok_bind, pairAt_nil, pure_ok]
    rfl
  | cons x rest =>
    obtain ⟨i, key, v⟩ := x
    obtain ⟨t', deleted, search, _⟩ := h.search.delete_least
    have read := pairAt_node h.search (List.mem_cons_self (a := (i, Entry.mk key v)))
    have whole : Mirrors q ([] ++ (i, ⟨key, v⟩) :: rest) := h
    obtain ⟨mirrors, _⟩ := whole.without search
    refine ⟨_, rest, ?_, mirrors, rfl⟩
    simp only [RbQueue.run, h.search.weaken.min_cons, ok_bind, read, deleted, pure_ok]
    rfl

theorem remove_spec (h : Mirrors q nodes) (gentle : q.Gentle (.remove key)) :
    ∃ q' nodes', Leaves q nodes (.remove key) q' nodes' := by
  cases found : q.handles key with
  | none =>
    have absent := h.unknown.mp found
    have none : (nodes.map pair).find? (·.1 = key) = none := by
      rw [List.find?_eq_none]
      intro x member same
      exact absent (List.mem_map.mpr ⟨x, member, of_decide_eq_true same⟩)
    refine ⟨q, nodes, ?_, h, ?_⟩
    · simp only [RbQueue.run, found, QueueOp.apply, none]
    · exact (SortedMap.erase_absent absent).symm
  | some p =>
    obtain ⟨i, v, rfl, member⟩ := (h.handles _ _).mp found
    obtain ⟨lone, straight⟩ := gentle i found
    have read := pairAt_node h.search member
    obtain ⟨t', front, back, deleted, rfl, _, one, _, keeps⟩ := h.search.delete member
    obtain ⟨mirrors, pairs⟩ := h.without (keeps straight _ (one lone))
    have sorted := h.sorted
    rw [List.map_append, List.map_cons] at sorted
    refine ⟨_, _, ?_, mirrors, pairs⟩
    simp only [RbQueue.run, found, ok_bind, read, deleted, pure_ok, QueueOp.apply]
    rw [List.map_append, List.map_cons, pair, sorted.find_between]

/-- One call, against the sorted map. -/
theorem run_spec (h : Mirrors q nodes) (op : QueueOp V) (gentle : q.Gentle op) :
    ∃ q' nodes', Leaves q nodes op q' nodes' := by
  cases op with
  | insert key val => exact insert_spec h key val
  | least => exact ⟨q, nodes, least_spec h⟩
  | greatest => exact ⟨q, nodes, greatest_spec h⟩
  | next key => exact ⟨q, nodes, next_spec h gentle⟩
  | takeLeast => exact takeLeast_spec h
  | remove key => exact remove_spec h gentle

/-- A call that returns, and its answer. -/
def Step (q : RbQueue V) (call : QueueOp V × Option (Int × V)) (q' : RbQueue V) : Prop :=
  q.run call.1 = .ok (call.2, q')

def Allowed (q : RbQueue V) (call : QueueOp V × Option (Int × V)) : Prop := q.Gentle call.1

theorem runs_spec {unset : V} {trace : List (QueueOp V × Option (Int × V))}
    (run : Runs Step Allowed (start unset) trace q) : ∃ nodes, Mirrors q nodes ∧
      (trace.map Prod.snd, nodes.map pair) = QueueOp.evaluate [] (trace.map Prod.fst) := by
  induction run with
  | start => exact ⟨[], start_mirrors unset, rfl⟩
  | step _ gentle taken ih =>
    obtain ⟨nodes, mirrors, agree⟩ := ih
    obtain ⟨q', nodes', leaves⟩ := run_spec mirrors _ gentle
    have same := Except.ok.inj (taken.symm.trans leaves.run)
    cases (Prod.mk.inj same).2
    refine ⟨nodes', leaves.mirrors, ?_⟩
    rw [List.map_append, List.map_append, List.map_singleton, List.map_singleton,
      QueueOp.evaluate_concat, ← agree, (Prod.mk.inj same).1, leaves.pairs]

/-- Over every run of the calls the tree answers as a sorted map does, every further call returns, and
the tree stays a valid red-black tree. Only removals of chosen keys and `rbtree_successor` are asked to be
gentle. -/
theorem tree_is_sorted_map (unset : V) (trace : List (QueueOp V × Option (Int × V))) (q : RbQueue V)
    (run : Runs Step Allowed (start unset) trace q) : ∃ nodes, q.tree.Search nodes ∧
      (trace.map Prod.snd, nodes.map pair) = QueueOp.evaluate [] (trace.map Prod.fst) ∧
      ∀ op, q.Gentle op → ∃ q', q.run op = .ok ((op.apply (nodes.map pair)).1, q') := by
  obtain ⟨nodes, mirrors, agree⟩ := runs_spec run
  refine ⟨nodes, mirrors.search, agree, fun op gentle => ?_⟩
  obtain ⟨q', _, leaves⟩ := run_spec mirrors op gentle
  exact ⟨q', leaves.run⟩

/-- A check of `Gentle`. -/
def gently [DecidableEq V] (q : RbQueue V) : QueueOp V → Bool
  | .remove key =>
    match q.handles key with
    | some (.at i) => q.tree.goesWell i
    | _ => true
  | .next key =>
    match q.handles key, q.tree.max with
    | some p, .ok greatest => p ≠ greatest || q.tree.root = p
    | _, _ => true
  | _ => true

theorem gently_sound [DecidableEq V] {op : QueueOp V} (check : q.gently op = true) : q.Gentle op := by
  cases op with
  | next key =>
    intro p found last
    simp only [gently, found, last, Bool.or_eq_true, decide_eq_true_eq] at check
    exact check.resolve_left fun other => other rfl
  | remove key =>
    intro i found
    simp only [gently, found] at check
    exact Rbtree.goesWell_sound check
  | insert | least | greatest | takeLeast => trivial

/-- The call, if it is gentle and has this answer. -/
def next [DecidableEq V] (q : RbQueue V) (call : QueueOp V × Option (Int × V)) : Option (RbQueue V) :=
  match q.run call.1 with
  | .ok (answer, q') => if q.gently call.1 ∧ answer = call.2 then some q' else none
  | .error _ => none

theorem next_sound [DecidableEq V] {call : QueueOp V × Option (Int × V)} {q' : RbQueue V}
    (taken : q.next call = some q') : Allowed q call ∧ Step q call q' := by
  unfold RbQueue.next at taken
  split at taken
  · rename_i answer q'' run
    split at taken
    · rename_i checks
      cases taken
      exact ⟨gently_sound checks.1, by rw [Step, run, checks.2]⟩
    · cases taken
  · cases taken

/-- Four keys, of which one is given twice, the nodes behind two of them, and the removal of the greatest
and of the least. -/
theorem tree_is_sorted_map_removed : ∃ trace, ∃ q : RbQueue Nat, ∃ nodes,
    Runs Step Allowed (start 0) trace q ∧
    trace.map Prod.fst = [.insert 20 8, .insert 10 7, .insert 20 9, .insert 30 5, .insert 40 6, .next 10,
      .next 30, .remove 40, .takeLeast, .greatest, .least] ∧
    trace.map Prod.snd = [none, none, none, none, none, some (20, 8), some (40, 6), some (40, 6),
      some (10, 7), some (30, 5), some (20, 8)] ∧
    q.tree.Search nodes ∧ nodes.map pair = [(20, 8), (30, 5)] ∧
    ∀ op, q.Gentle op → ∃ q', q.run op = .ok ((op.apply (nodes.map pair)).1, q') := by
  let trace : List (QueueOp Nat × Option (Int × Nat)) := [(.insert 20 8, none), (.insert 10 7, none),
    (.insert 20 9, none), (.insert 30 5, none), (.insert 40 6, none), (.next 10, some (20, 8)),
    (.next 30, some (40, 6)), (.remove 40, some (40, 6)), (.takeLeast, some (10, 7)),
    (.greatest, some (30, 5)), (.least, some (20, 8))]
  have goes : (trace.foldlM next (start 0)).isSome = true := by decide +kernel
  obtain ⟨q, made⟩ := Option.isSome_iff_exists.mp goes
  have run := Runs.of_function next (fun _ _ _ taken => next_sound taken) trace made
  obtain ⟨nodes, search, agree, further⟩ := tree_is_sorted_map 0 trace q run
  exact ⟨trace, q, nodes, run, rfl, rfl, search, (Prod.mk.inj agree).2, further⟩

end RbQueue
end Yamq
