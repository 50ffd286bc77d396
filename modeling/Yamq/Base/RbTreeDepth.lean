import Yamq.Base.RbTreeSuccessor
import Yamq.Lib.RedBlack.Height

/-! How many turns the loops of `base/rbtree/rbtree.cpp` take that go down or up a path. A budget of turns
above the height of the tree is enough for each of them, and in a valid tree the height is at most twice
the logarithm of the number of nodes. -/
namespace Yamq.Rbtree

open RedBlack

variable {V : Type} {t : Rbtree V} {nodes : List (Nat × Entry V)} {i : Nat} {e : Entry V}

/-- The search, `rbtree_min` and `rbtree_max` come to the same end with any two budgets above the height. -/
theorem findPlace_within {n : NodeTree V} {path : NodePath V} {p : Ptr} {key : Int}
    (h : Holds t (Path.fill path n)) {turns turns' : Nat} (enough : n.height < turns)
    (enough' : n.height < turns') : t.findPlace key turns (ptr n) p = t.findPlace key turns' (ptr n) p := by
  induction n generalizing path p turns turns' with
  | nil =>
    obtain ⟨turns, rfl⟩ : ∃ f, turns = f + 1 := ⟨turns - 1, by omega⟩
    obtain ⟨turns', rfl⟩ : ∃ f, turns' = f + 1 := ⟨turns' - 1, by omega⟩
    rw [findPlace, findPlace, ptr_nil, if_pos h.nil.symm, if_pos h.nil.symm]
  | node c l i e r ihl ihr =>
    obtain ⟨turns, rfl⟩ : ∃ f, turns = f + 1 := ⟨turns - 1, by omega⟩
    obtain ⟨turns', rfl⟩ : ∃ f, turns' = f + 1 := ⟨turns' - 1, by omega⟩
    rw [Tree.height_node] at enough enough'
    have left : Holds t (Path.fill (⟨.left, c, i, e, r⟩ :: path) l) := h
    have right : Holds t (Path.fill (⟨.right, c, i, e, l⟩ :: path) r) := h
    have onLeft : t.findPlace key turns (ptr l) (.at i) = t.findPlace key turns' (ptr l) (.at i) :=
      ihl left (by omega) (by omega)
    have onRight : t.findPlace key turns (ptr r) (.at i) = t.findPlace key turns' (ptr r) (.at i) :=
      ihr right (by omega) (by omega)
    simp only [findPlace, ptr_node, get_at h.at_node, ok_bind, onLeft, onRight]

theorem minLoop_within {n : NodeTree V} {path : NodePath V} {least : Ptr}
    (h : Holds t (Path.fill path n)) {turns turns' : Nat} (enough : n.height < turns)
    (enough' : n.height < turns') : t.minLoop turns (ptr n) least = t.minLoop turns' (ptr n) least := by
  induction n generalizing path least turns turns' with
  | nil =>
    obtain ⟨turns, rfl⟩ : ∃ f, turns = f + 1 := ⟨turns - 1, by omega⟩
    obtain ⟨turns', rfl⟩ : ∃ f, turns' = f + 1 := ⟨turns' - 1, by omega⟩
    rw [minLoop, minLoop, ptr_nil, if_pos h.nil.symm, if_pos h.nil.symm]
  | node c l i e r ihl _ =>
    obtain ⟨turns, rfl⟩ : ∃ f, turns = f + 1 := ⟨turns - 1, by omega⟩
    obtain ⟨turns', rfl⟩ : ∃ f, turns' = f + 1 := ⟨turns' - 1, by omega⟩
    rw [Tree.height_node] at enough enough'
    have left : Holds t (Path.fill (⟨.left, c, i, e, r⟩ :: path) l) := h
    have onLeft : t.minLoop turns (ptr l) (.at i) = t.minLoop turns' (ptr l) (.at i) :=
      ihl left (by omega) (by omega)
    simp only [minLoop, ptr_node, get_at h.at_node, ok_bind, onLeft]

theorem maxLoop_within {n : NodeTree V} {path : NodePath V} {most : Ptr}
    (h : Holds t (Path.fill path n)) {turns turns' : Nat} (enough : n.height < turns)
    (enough' : n.height < turns') : t.maxLoop turns (ptr n) most = t.maxLoop turns' (ptr n) most := by
  induction n generalizing path most turns turns' with
  | nil =>
    obtain ⟨turns, rfl⟩ : ∃ f, turns = f + 1 := ⟨turns - 1, by omega⟩
    obtain ⟨turns', rfl⟩ : ∃ f, turns' = f + 1 := ⟨turns' - 1, by omega⟩
    rw [maxLoop, maxLoop, ptr_nil, if_pos h.nil.symm, if_pos h.nil.symm]
  | node c l i e r _ ihr =>
    obtain ⟨turns, rfl⟩ : ∃ f, turns = f + 1 := ⟨turns - 1, by omega⟩
    obtain ⟨turns', rfl⟩ : ∃ f, turns' = f + 1 := ⟨turns' - 1, by omega⟩
    rw [Tree.height_node] at enough enough'
    have right : Holds t (Path.fill (⟨.right, c, i, e, l⟩ :: path) r) := h
    have onRight : t.maxLoop turns (ptr r) (.at i) = t.maxLoop turns' (ptr r) (.at i) :=
      ihr right (by omega) (by omega)
    simp only [maxLoop, ptr_node, get_at h.at_node, ok_bind, onRight]

theorem height_le_size (tree : NodeTree V) : tree.height ≤ tree.size := by
  induction tree with
  | nil => exact Nat.le_refl _
  | node c l i e r ihl ihr =>
    rw [Tree.height_node, Tree.size_node]
    omega

theorem Holds.height_lt {tree : NodeTree V} (h : Holds t tree) : tree.height < t.fresh := by
  have size : tree.ids.length = tree.size := List.length_map ..
  have fits := h.length_lt
  have low := height_le_size tree
  omega

/-- `rbtree_successor` with a budget for its loops. -/
def successorWithin (turns : Nat) (t : Rbtree V) (n : Ptr) : Except Fault Ptr :=
  if n = t.nil then .ok .null
  else do
    let right := (← t.get n).right
    if right = t.nil then t.successorUp turns n (← t.get n).parent
    else t.minLoop turns right right

theorem successorWithin_fresh (t : Rbtree V) (n : Ptr) : t.successor n = successorWithin t.fresh t n := rfl

theorem Holds.successorWithin {tree : NodeTree V} (h : Holds t tree) (member : (i, e) ∈ tree.toList)
    {turns turns' : Nat} (enough : tree.height < turns) (enough' : tree.height < turns') :
    successorWithin turns t (.at i) = successorWithin turns' t (.at i) := by
  obtain ⟨path, c, l, r, rfl⟩ := exists_place member
  have deep := Path.length_add_height_le path (RedBlack.Tree.node c l i e r)
  have lower : r.height < (RedBlack.Tree.node c l i e r).height := Tree.height_right_lt
  have right : Holds t (Path.fill (⟨.right, c, i, e, l⟩ :: path) r) := h
  have low : path.length < turns ∧ path.length < turns' := by omega
  have up {turns : Nat} (enough : path.length < turns) :
      t.successorUp turns (.at i) (above path) = .ok (climbs path) :=
    successorUp_spec h Tree.node_ne_nil enough
  have down : t.minLoop turns (ptr r) (ptr r) = t.minLoop turns' (ptr r) (ptr r) :=
    minLoop_within right (by omega) (by omega)
  simp only [Rbtree.successorWithin, get_at h.at_node, ok_bind, up low.1, up low.2, down]

/-- For every valid tree of `n` nodes a budget of `2 * log2 (n + 1) + 1` turns is enough: the search of
`rbtree_insert` finds the place of every key with it, and `rbtree_min`, `rbtree_max` and, at every node,
`rbtree_successor` return, with the node that they return with any other. -/
theorem walks_are_logarithmic (h : Search t nodes) {turns : Nat}
    (enough : 2 * (nodes.length + 1).log2 < turns) :
    (∀ key, ∃ place, t.findPlace key turns t.root t.root = .ok place ∧
      t.findPlace key t.fresh t.root t.root = .ok place) ∧
    (∃ p, t.minLoop turns t.root t.root = .ok p ∧ t.min = .ok p) ∧
    (∃ p, t.maxLoop turns t.root t.root = .ok p ∧ t.max = .ok p) ∧
    ∀ i e, (i, e) ∈ nodes →
      ∃ p, successorWithin turns t (.at i) = .ok p ∧ t.successor (.at i) = .ok p := by
  have least := h.weaken.min_first
  have most := h.weaken.max_spec
  have next (i : Nat) (e : Entry V) (member : (i, e) ∈ nodes) : ∃ p, t.successor (.at i) = .ok p := by
    obtain ⟨front, back, rfl⟩ := List.append_of_mem member
    exact ⟨_, h.weaken.successor_eq⟩
  obtain ⟨tree, holds, valid, _, rfl⟩ := h
  have whole : Holds t (Path.fill [] tree) := holds
  have low : tree.height < turns := Nat.lt_of_le_of_lt valid.height_log enough
  have fits := holds.height_lt
  refine ⟨fun key => ?_, ⟨_, ?_, least⟩, ⟨_, ?_, most⟩, fun i e member => ?_⟩
  · have found := holds.search key
    refine ⟨_, ?_, found⟩
    rw [← found, holds.root]
    exact findPlace_within whole low fits
  · rw [← least, Rbtree.min, holds.root]
    exact minLoop_within whole low fits
  · rw [← most, Rbtree.max, holds.root]
    exact maxLoop_within whole low fits
  · obtain ⟨p, returns⟩ := next i e member
    exact ⟨p, (holds.successorWithin member low fits).trans returns, returns⟩

/-- Three keys in ascending order, which the tree turns into two levels. -/
theorem walks_are_logarithmic_three : ∃ t : Rbtree Nat,
    (create 0).insertAll [(10, 0), (20, 0), (30, 0)] = .ok t ∧
      (∃ p, t.minLoop 5 t.root t.root = .ok p ∧ t.min = .ok p) ∧
      ∃ p, successorWithin 5 t (.at 1) = .ok p ∧ t.successor (.at 1) = .ok p := by
  let entries : List (Int × Nat) := [(10, 0), (20, 0), (30, 0)]
  let tree : NodeTree Nat := .node .black (.node .red .nil 1 ⟨10, 0⟩ .nil) 2 ⟨20, 0⟩
    (.node .red .nil 3 ⟨30, 0⟩ .nil)
  have done : treeAll 1 .nil entries = some tree := rfl
  obtain ⟨t, run, holds, -⟩ := (create_holds 0).insertAll rfl done
  have ordered : ([10, 20, 30] : List Int).Pairwise (· < ·) := by decide
  have balanced : Balanced tree 1 := .black (.red rfl rfl .nil .nil) (.red rfl rfl .nil .nil)
  have search : Search t tree.toList := ⟨tree, holds, ⟨rfl, 1, balanced⟩, ordered, rfl⟩
  have few : 2 * (tree.toList.length + 1).log2 < 5 := by decide
  obtain ⟨-, least, -, next⟩ := walks_are_logarithmic search few
  exact ⟨t, run, least, next 1 ⟨10, 0⟩ (by simp [tree])⟩

end Yamq.Rbtree
