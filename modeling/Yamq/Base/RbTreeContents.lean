import Yamq.Base.RbTreeDelete

/-! The operations of `rbtree.h` in terms of the nodes of the tree in their order, for their users. -/
namespace Yamq.Rbtree

open RedBlack

variable {V : Type} {t : Rbtree V}

/-- The nodes of the tree, with their addresses and entries. -/
def Nodes (t : Rbtree V) (nodes : List (Nat × Entry V)) : Prop :=
  ∃ tree, Holds t tree ∧ tree.toList = nodes

/-- A valid red-black tree with strictly ascending keys. -/
def Search (t : Rbtree V) (nodes : List (Nat × Entry V)) : Prop :=
  ∃ tree, Holds t tree ∧ Valid tree ∧ Ordered Entry.key tree ∧ tree.toList = nodes

/-- The nodes in order, if the heap holds a valid tree with ordered keys. -/
def readNodes [DecidableEq V] (t : Rbtree V) : Option (List (Nat × Entry V)) := do
  let tree ← t.readTree t.fresh t.root
  if Holds t tree ∧ Valid tree ∧ Ordered Entry.key tree then some tree.toList else none

theorem readNodes_search [DecidableEq V] {nodes : List (Nat × Entry V)} (found : t.readNodes = some nodes) :
    Search t nodes := by
  obtain ⟨tree, _, found⟩ := Option.bind_eq_some_iff.mp found
  split_ifs at found with good
  cases found
  exact ⟨tree, good.1, good.2.1, good.2.2, rfl⟩

/-- The same with a black root, but without the balance that other colours may spoil. -/
def Sorted (t : Rbtree V) (nodes : List (Nat × Entry V)) : Prop :=
  ∃ tree, Holds t tree ∧ tree.color = .black ∧ Ordered Entry.key tree ∧ tree.toList = nodes

/-! Which tree the heap holds is determined by the heap. -/

theorem Cells.unique {heap : Nat → Option (RbNode V)} {x y : NodeTree V} {p q : Ptr}
    (hx : Cells heap x p) (hy : Cells heap y q) (same : ptr x = ptr y) (outX : 0 ∉ x.ids)
    (outY : 0 ∉ y.ids) : x = y := by
  induction x generalizing y p q with
  | nil =>
    cases y with
    | nil => rfl
    | node c l i e r =>
      cases Ptr.at.inj same
      exact absurd (by simp) outY
  | node c l i e r ihl ihr =>
    cases y with
    | nil =>
      cases Ptr.at.inj same
      exact absurd (by simp) outX
    | node c' l' j e' r' =>
      cases Ptr.at.inj same
      obtain ⟨here, left, right⟩ := hx
      obtain ⟨here', left', right'⟩ := hy
      have cells := Option.some.inj (here.symm.trans here')
      simp only [RbNode.mk.injEq] at cells
      obtain ⟨sameL, sameR, _, rfl, rfl⟩ := cells
      simp only [Tree.ids_node, List.mem_append, List.mem_cons, not_or] at outX outY
      rw [ihl left left' sameL outX.1 outY.1, ihr right right' sameR outX.2.2 outY.2.2]

theorem Holds.unique {x y : NodeTree V} (hx : Holds t x) (hy : Holds t y) : x = y :=
  hx.cells.unique hy.cells (hx.root.symm.trans hy.root) hx.apart hy.apart

section
variable {nodes : List (Nat × Entry V)} {i : Nat} {e : Entry V}

theorem Search.sorted (h : Search t nodes) : Sorted t nodes := by
  obtain ⟨tree, holds, valid, ordered, same⟩ := h
  exact ⟨tree, holds, valid.1, ordered, same⟩

theorem Sorted.weaken (h : Sorted t nodes) : Nodes t nodes := by
  obtain ⟨tree, holds, _, _, same⟩ := h
  exact ⟨tree, holds, same⟩

theorem Search.weaken (h : Search t nodes) : Nodes t nodes := h.sorted.weaken

theorem Search.ordered (h : Search t nodes) : (keys Entry.key nodes).Pairwise (· < ·) := by
  obtain ⟨tree, _, _, ordered, rfl⟩ := h
  exact ordered

theorem Nodes.unique {nodes' : List (Nat × Entry V)} (h : Nodes t nodes) (h' : Nodes t nodes') :
    nodes = nodes' := by
  obtain ⟨x, hx, rfl⟩ := h
  obtain ⟨y, hy, rfl⟩ := h'
  rw [hx.unique hy]

/-- The node at an address is in the tree and has that entry. -/
def InTree (t : Rbtree V) (i : Nat) (e : Entry V) : Prop := ∃ nodes, Nodes t nodes ∧ (i, e) ∈ nodes

theorem Nodes.inTree_iff (h : Nodes t nodes) : InTree t i e ↔ (i, e) ∈ nodes := by
  constructor
  · rintro ⟨nodes', h', member⟩
    rwa [h.unique h']
  · exact fun member => ⟨nodes, h, member⟩

theorem create_holds (unset : V) : Holds (create unset) .nil :=
  ⟨rfl, rfl, trivial, ⟨_, rfl, rfl, rfl, rfl⟩, nofun, List.nodup_nil, nofun, Nat.zero_lt_one⟩

theorem create_search (unset : V) : Search (create unset) [] :=
  ⟨.nil, create_holds unset, valid_nil, List.Pairwise.nil, rfl⟩

theorem Nodes.distinct (h : Nodes t nodes) : (nodes.map Prod.fst).Nodup := by
  obtain ⟨tree, holds, rfl⟩ := h
  exact holds.distinct

theorem Nodes.allocated (h : Nodes t nodes) (member : (i, e) ∈ nodes) : i < t.fresh := by
  obtain ⟨tree, holds, rfl⟩ := h
  exact holds.allocated i (List.mem_map_of_mem (f := Prod.fst) member)

theorem Nodes.length_lt (h : Nodes t nodes) : nodes.length < t.fresh := by
  obtain ⟨tree, holds, rfl⟩ := h
  have short := holds.length_lt
  rwa [Tree.ids, List.length_map] at short

theorem exists_place {tree : NodeTree V} (member : (i, e) ∈ tree.toList) :
    ∃ path c l r, tree = Path.fill path (.node c l i e r) := by
  have general (path : NodePath V) : ∃ path' c l r, Path.fill path tree = Path.fill path'
      (.node c l i e r) := by
    induction tree generalizing path with
    | nil => cases member
    | node c l j a r ihl ihr =>
      rw [Tree.toList_node, List.mem_append, List.mem_cons] at member
      rcases member with left | here | right
      · exact ihl left (⟨.left, c, j, a, r⟩ :: path)
      · cases here
        exact ⟨path, c, l, r, rfl⟩
      · exact ihr right (⟨.right, c, j, a, l⟩ :: path)
  exact general []

theorem Nodes.get (h : Nodes t nodes) (member : (i, e) ∈ nodes) :
    ∃ n, t.get (.at i) = .ok n ∧ n.entry = e := by
  obtain ⟨tree, holds, rfl⟩ := h
  obtain ⟨path, c, l, r, rfl⟩ := exists_place member
  exact ⟨_, get_at holds.at_node, rfl⟩

theorem Nodes.min_nil (h : Nodes t []) : t.min = .ok t.nil := by
  obtain ⟨tree, holds, none⟩ := h
  rw [min_spec holds, none]

theorem Nodes.min_cons (h : Nodes t ((i, e) :: nodes)) : t.min = .ok (.at i) := by
  obtain ⟨tree, holds, first⟩ := h
  rw [min_spec holds, first]

theorem Nodes.not_nil (h : Nodes t nodes) (member : (i, e) ∈ nodes) : Ptr.at i ≠ t.nil := by
  obtain ⟨tree, holds, rfl⟩ := h
  exact holds.not_nil (List.mem_map_of_mem (f := Prod.fst) member)

theorem exists_least {tree : NodeTree V} {rest : List (Nat × Entry V)}
    (first : tree.toList = (i, e) :: rest) : ∃ path c r, tree = Path.fill path (.node c .nil i e r) ∧
      (∀ f ∈ path, f.dir = .left) ∧ rest = r.toList ++ Path.after path := by
  cases tree with
  | nil => cases first
  | node c l j a r =>
    rcases found : leftmost c l j a r [] with ⟨yc, yi, ye, yr, sub⟩
    have same := leftmost_fill _ _ _ _ _ _ found
    obtain ⟨front, rfl, left⟩ := leftmost_left _ _ _ _ _ _ found
    rw [List.append_nil, Path.fill_nil] at same
    rw [← same, Path.toList_fill, before_left left] at first
    simp only [Tree.toList_node, Tree.toList_nil, List.nil_append, List.cons_append,
      List.cons.injEq, Prod.mk.injEq] at first
    obtain ⟨⟨rfl, rfl⟩, rfl⟩ := first
    exact ⟨front, yc, yr, same.symm, left, rfl⟩

/-- Taking the least node out. Only in a tree that is not valid can that go wrong. -/
theorem Nodes.delete_least {rest : List (Nat × Entry V)} (h : Nodes t ((i, e) :: rest)) :
    t.delete (.at i) = .error .nullPointer ∨
      ∃ t', t.delete (.at i) = .ok t' ∧ Nodes t' rest ∧ t'.fresh = t.fresh := by
  obtain ⟨tree, holds, first⟩ := h
  obtain ⟨path, c, r, rfl, left, rfl⟩ := exists_least first
  have deletes := delete_spec holds
  cases ends : RedBlack.delete path c .nil i r with
  | none =>
    rw [ends] at deletes
    exact .inl deletes
  | some o =>
    obtain ⟨tree', slip⟩ := o
    rw [ends] at deletes
    obtain ⟨t', run, holds', fresh⟩ := deletes
    refine .inr ⟨t', run, ⟨tree', holds', ?_⟩, fresh⟩
    rw [delete_toList_one (.inl rfl) ends, before_left left]
    simp

theorem Search.delete_least {rest : List (Nat × Entry V)} (h : Search t ((i, e) :: rest)) :
    ∃ t', t.delete (.at i) = .ok t' ∧ Search t' rest ∧ t'.fresh = t.fresh := by
  obtain ⟨tree, holds, valid, ordered, first⟩ := h
  obtain ⟨path, c, r, rfl, left, rfl⟩ := exists_least first
  have deletes := delete_spec holds
  obtain ⟨tree', slip, ends, good⟩ := RedBlack.delete_spec valid
  rw [ends] at deletes
  obtain ⟨t', run, holds', fresh⟩ := deletes
  have last : tree'.toList = r.toList ++ Path.after path := by
    rw [delete_toList_one (.inl rfl) ends, before_left left]
    simp
  refine ⟨t', run, ⟨tree', holds', good (RedBlack.delete_least left ends), ?_, last⟩, fresh⟩
  exact delete_ordered ordered ends

/-- The node has at most one child. -/
def Lone (t : Rbtree V) (i : Nat) : Prop :=
  ∃ n, t.get (.at i) = .ok n ∧ (n.left = t.nil ∨ n.right = t.nil)

/-- Deleting the node does not take the last case of the repair on the right side. -/
def Straight (t : Rbtree V) (i : Nat) : Prop :=
  ∀ path c l e r tree slip, Holds t (Path.fill path (.node c l i e r)) →
    RedBlack.delete path c l i r = some (tree, slip) → slip = false

theorem Holds.lone_iff {path : NodePath V} {c : Color} {l r : NodeTree V}
    (h : Holds t (Path.fill path (.node c l i e r))) : Lone t i ↔ l = .nil ∨ r = .nil := by
  have read := get_at h.at_node
  have here : i ∈ (Path.fill path (.node c l i e r)).ids := mem_ids_fill.mpr (.inl (by simp))
  have isNil {x : NodeTree V} (sub : ∀ a ∈ x.ids, a ∈ (Path.fill path (.node c l i e r)).ids) :
      ptr x = t.nil ↔ x = .nil := by
    cases x with
    | nil => exact iff_of_true (by rw [ptr_nil, h.nil]) rfl
    | node xc xl j a xr =>
      refine iff_of_false ?_ nofun
      exact h.not_nil (sub j (by simp))
  have left : ∀ a ∈ l.ids, a ∈ (Path.fill path (.node c l i e r)).ids := fun a member =>
    mem_ids_fill.mpr (.inl (by simp [member]))
  have right : ∀ a ∈ r.ids, a ∈ (Path.fill path (.node c l i e r)).ids := fun a member =>
    mem_ids_fill.mpr (.inl (by simp [member]))
  constructor
  · rintro ⟨n, found, one⟩
    cases read.symm.trans found
    exact one.imp (isNil left).mp (isNil right).mp
  · exact fun one => ⟨_, read, one.imp (isNil left).mpr (isNil right).mpr⟩

/-- Deleting any node, which only in a tree that is not valid can go wrong. With two children its
address gets the entry of the next node, whose address goes. -/
theorem Sorted.delete (h : Sorted t nodes) (member : (i, e) ∈ nodes) :
    (t.delete (.at i) = .error .nullPointer ∧ ¬ Search t nodes) ∨
    ∃ t' front back, t.delete (.at i) = .ok t' ∧ nodes = front ++ (i, e) :: back ∧
      t'.fresh = t.fresh ∧
      (Lone t i → Sorted t' (front ++ back)) ∧
      (¬ Lone t i → ∃ next rest, back = next :: rest ∧ Sorted t' (front ++ (i, next.2) :: rest)) ∧
      (Search t nodes → Straight t i → ∀ nodes', Nodes t' nodes' → Search t' nodes') := by
  obtain ⟨tree, holds, black, ordered, rfl⟩ := h
  obtain ⟨path, c, l, r, rfl⟩ := exists_place member
  have deletes := delete_spec holds
  have valid (search : Search t (Path.fill path (.node c l i e r)).toList) :
      Valid (Path.fill path (.node c l i e r)) := by
    obtain ⟨tree, holds', valid, _⟩ := search
    rwa [holds.unique holds']
  cases ends : RedBlack.delete path c l i r with
  | none =>
    rw [ends] at deletes
    refine .inl ⟨deletes, fun search => ?_⟩
    obtain ⟨_, _, result, _⟩ := RedBlack.delete_spec (valid search)
    rw [ends] at result
    cases result
  | some o =>
    obtain ⟨tree', slip⟩ := o
    rw [ends] at deletes
    obtain ⟨t', run, holds', fresh⟩ := deletes
    have black' : tree'.color = .black := delete_color black ends
    have whole : (Path.fill path (.node c l i e r)).toList =
        (Path.before path ++ l.toList) ++ (i, e) :: (r.toList ++ Path.after path) := by
      simp [Path.toList_fill]
    have one (lone : Lone t i) :
        tree'.toList = (Path.before path ++ l.toList) ++ (r.toList ++ Path.after path) := by
      rw [delete_toList_one (holds.lone_iff.mp lone) ends]
      simp
    have two (full : ¬ Lone t i) : ∃ next rest, r.toList ++ Path.after path = next :: rest ∧
        tree'.toList = (Path.before path ++ l.toList) ++ (i, next.2) :: rest := by
      rw [holds.lone_iff, not_or] at full
      obtain ⟨y, rest, some_, last⟩ := delete_toList_two full.1 full.2 ends
      exact ⟨y, rest ++ Path.after path, by simp [some_], by simp [last]⟩
    have ordered' : Ordered Entry.key tree' := delete_ordered ordered ends
    refine .inr ⟨t', _, _, run, whole, fresh, fun lone => ?_, fun full => ?_,
      fun search straight nodes' nodes => ?_⟩
    · exact ⟨tree', holds', black', ordered', one lone⟩
    · obtain ⟨next, rest, some_, last⟩ := two full
      exact ⟨next, rest, some_, tree', holds', black', ordered', last⟩
    · obtain ⟨tree'', holds'', rfl⟩ := nodes
      obtain rfl := holds''.unique holds'
      obtain ⟨_, _, result, good⟩ := RedBlack.delete_spec (valid search)
      cases ends.symm.trans result
      exact ⟨_, holds', good (straight path c l e r _ slip holds ends), ordered', rfl⟩

theorem Search.delete (h : Search t nodes) (member : (i, e) ∈ nodes) :
    ∃ t' front back, t.delete (.at i) = .ok t' ∧ nodes = front ++ (i, e) :: back ∧
      t'.fresh = t.fresh ∧
      (Lone t i → Nodes t' (front ++ back)) ∧
      (¬ Lone t i → ∃ next rest, back = next :: rest ∧ Nodes t' (front ++ (i, next.2) :: rest)) ∧
      (Straight t i → ∀ nodes', Nodes t' nodes' → Search t' nodes') := by
  rcases h.sorted.delete member with ⟨_, invalid⟩ | ⟨t', front, back, run, whole, fresh, one, two, keeps⟩
  · exact absurd h invalid
  · refine ⟨t', front, back, run, whole, fresh, fun lone => (one lone).weaken, fun full => ?_, keeps h⟩
    obtain ⟨next, rest, some_, left⟩ := two full
    exact ⟨next, rest, some_, left.weaken⟩

theorem Sorted.insert (h : Sorted t nodes) {key : Int} (v : V)
    (free : key ∉ keys Entry.key nodes) : ∃ t' front back, t.insert key v = .ok (t', .at t.fresh) ∧
      nodes = front ++ back ∧ Sorted t' (front ++ (t.fresh, ⟨key, v⟩) :: back) ∧
      t'.fresh = t.fresh + 1 ∧
      (Search t nodes → Search t' (front ++ (t.fresh, ⟨key, v⟩) :: back)) := by
  obtain ⟨tree, holds, black, ordered, rfl⟩ := h
  cases done : RedBlack.insert Entry.key t.fresh ⟨key, v⟩ tree with
  | none => exact absurd ((insert_none ordered).mp done) free
  | some tree' =>
    obtain ⟨t', run, holds', fresh, _⟩ := insert_absent holds black done
    obtain ⟨front, back, whole, grown, _⟩ := insert_toList ordered done
    have ordered' : Ordered Entry.key tree' := insert_ordered ordered done
    have black' : tree'.color = .black := insert_color done
    refine ⟨t', front, back, run, whole, ⟨tree', holds', black', ordered', grown⟩, fresh, ?_⟩
    rintro ⟨_, holds'', valid, _⟩
    obtain rfl := holds.unique holds''
    exact ⟨tree', holds', insert_valid valid done, ordered', grown⟩

theorem Search.insert (h : Search t nodes) {key : Int} (v : V)
    (free : key ∉ keys Entry.key nodes) : ∃ t' front back, t.insert key v = .ok (t', .at t.fresh) ∧
      nodes = front ++ back ∧ Search t' (front ++ (t.fresh, ⟨key, v⟩) :: back) ∧
      t'.fresh = t.fresh + 1 := by
  obtain ⟨t', front, back, run, whole, _, fresh, keeps⟩ := h.sorted.insert v free
  exact ⟨t', front, back, run, whole, keeps h, fresh⟩

/-- Inserting a key of the tree. The new node stays outside the tree, with no pointer set. -/
theorem Sorted.insert_known (h : Sorted t nodes) {key : Int} (v : V)
    (known : key ∈ keys Entry.key nodes) :
    t.insert key v = .ok (t.alloc ⟨key, v⟩, .at t.fresh) ∧ Sorted (t.alloc ⟨key, v⟩) nodes := by
  obtain ⟨tree, holds, black, ordered, rfl⟩ := h
  have none : RedBlack.insert Entry.key t.fresh ⟨key, v⟩ tree = none := (insert_none ordered).mpr known
  exact ⟨insert_present holds none, tree, (holds.alloc ⟨key, v⟩).1, black, ordered, rfl⟩

/-- Inserting a key of the tree leaves the tree as it is. The new node is not in it. -/
theorem Search.insert_known (h : Search t nodes) {key : Int} (v : V)
    (known : key ∈ keys Entry.key nodes) :
    ∃ t', t.insert key v = .ok (t', .at t.fresh) ∧ Search t' nodes := by
  obtain ⟨run, _⟩ := h.sorted.insert_known v known
  obtain ⟨tree, holds, valid, ordered, same⟩ := h
  exact ⟨_, run, tree, (holds.alloc ⟨key, v⟩).1, valid, ordered, same⟩

end

/-- Insertions one after the other. -/
def insertAll (t : Rbtree V) (entries : List (Int × V)) : Except Fault (Rbtree V) :=
  entries.foldlM (fun t x => do return (← t.insert x.1 x.2).1) t

/-- The tree of such a heap, if no key comes twice. -/
def treeAll (fresh : Nat) (tree : NodeTree V) : List (Int × V) → Option (NodeTree V)
  | [] => some tree
  | x :: rest => do treeAll (fresh + 1) (← RedBlack.insert Entry.key fresh ⟨x.1, x.2⟩ tree) rest

theorem Holds.insertAll {tree tree' : NodeTree V} (h : Holds t tree) (black : tree.color = .black)
    {entries : List (Int × V)} (done : treeAll t.fresh tree entries = some tree') :
    ∃ t', t.insertAll entries = .ok t' ∧ Holds t' tree' ∧ t'.fresh = t.fresh + entries.length := by
  induction entries generalizing t tree with
  | nil =>
    cases done
    exact ⟨t, rfl, h, rfl⟩
  | cons x rest ih =>
    obtain ⟨tree₁, inserted, done⟩ := Option.bind_eq_some_iff.mp done
    obtain ⟨t₁, run, h₁, fresh, _⟩ := insert_absent h black inserted
    rw [← fresh] at done
    obtain ⟨t', runs, h', more⟩ := ih h₁ (insert_color inserted) done
    refine ⟨t', ?_, h', by rw [more, fresh, List.length_cons]; omega⟩
    rw [Rbtree.insertAll, List.foldlM_cons, run]
    exact runs

end Yamq.Rbtree
