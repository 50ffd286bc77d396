import Yamq.Base.RbTreeContents
import Yamq.Lib.RedBlack.Imbalance

/-! `rbtree_insert` and `rbtree_delete` against all the invariants of the tree: the order of the keys,
the colours, the black heights and the pointers. -/
namespace Yamq.Rbtree

open RedBlack

variable {V : Type} {t t' : Rbtree V} {nodes : List (Nat × Entry V)} {i : Nat} {e : Entry V}

/-- The root and the sentinel are black, no red node has a red child, and every path down from the
root passes the same number of black nodes. -/
def Colored (t : Rbtree V) : Prop := ∃ tree, Holds t tree ∧ Valid tree

/-- The children of the sentinel are NULL, so that an operation that follows one of them ends with a
`nullPointer` fault. -/
def ChildlessNil (t : Rbtree V) : Prop :=
  ∃ n, t.get t.nil = .ok n ∧ n.left = .null ∧ n.right = .null

/-- Let `y` be the node that goes: the given one, or the next one if the given one has two children.
Either `y` or its child is red. Or, climbing from the place of `y` while the node above is black and its
other child is black with black children, one comes to the root, or below a red node whose other child
has black children, or beside a red node whose near child has black children, or to a left child. -/
def Mendable (t : Rbtree V) (i : Nat) : Prop :=
  ∀ path c l e r, Holds t (Path.fill path (.node c l i e r)) → deleteMendable path c l i r = true

theorem Search.place (h : Search t nodes) (member : (i, e) ∈ nodes) : ∃ path c l r,
    Holds t (Path.fill path (.node c l i e r)) ∧ Valid (Path.fill path (.node c l i e r)) := by
  obtain ⟨tree, holds, valid, _, rfl⟩ := h
  obtain ⟨path, c, l, r, rfl⟩ := exists_place member
  exact ⟨path, c, l, r, holds, valid⟩

theorem Search.colored (h : Search t nodes) : Colored t := by
  obtain ⟨tree, holds, valid, _⟩ := h
  exact ⟨tree, holds, valid⟩

theorem Holds.colored_iff {tree : NodeTree V} (h : Holds t tree) : Colored t ↔ Valid tree := by
  constructor
  · rintro ⟨tree', holds, valid⟩
    rwa [h.unique holds]
  · exact fun valid => ⟨tree, h, valid⟩

theorem Holds.childless {tree : NodeTree V} (h : Holds t tree) : ChildlessNil t := by
  obtain ⟨n, here, left, right, _⟩ := h.sentinel
  exact ⟨n, by rw [h.nil, get_at here], left, right⟩

/-- Deleting at a place of a valid tree. -/
theorem Holds.delete_valid {path : NodePath V} {c : Color} {l r : NodeTree V}
    (h : Holds t (Path.fill path (.node c l i e r)))
    (valid : Valid (Path.fill path (.node c l i e r))) :
    ∃ t', t.delete (.at i) = .ok t' ∧ (Colored t' ↔ deleteMendable path c l i r = true) := by
  have deletes := delete_spec h
  obtain ⟨tree, slip, ends, kept⟩ := delete_valid_iff valid
  rw [ends] at deletes
  obtain ⟨t', run, holds, _⟩ := deletes
  exact ⟨t', run, holds.colored_iff.trans kept⟩

/-- The condition under which the last case on the right side is not taken, on the tree before. -/
theorem Search.straight_iff (h : Search t nodes) : Straight t i ↔ Mendable t i := by
  have valid {tree : NodeTree V} (holds : Holds t tree) : Valid tree := by
    obtain ⟨tree', holds', valid, _⟩ := h
    rwa [holds.unique holds']
  constructor
  · intro straight path c l e r holds
    obtain ⟨tree, slip, ends, _⟩ := RedBlack.delete_spec (valid holds)
    have mark := delete_mendable ends
    rw [straight path c l e r tree slip holds ends] at mark
    simpa using mark
  · intro mendable path c l e r tree slip holds ends
    rw [delete_mendable ends, mendable path c l e r holds]
    rfl

theorem Search.mendable_of_colored (h : Search t nodes) (run : t.delete (.at i) = .ok t')
    (colored : Colored t') : Mendable t i := by
  intro path c l e r holds
  obtain ⟨tree, holds', valid, _⟩ := h
  rw [holds'.unique holds] at valid
  obtain ⟨t'', run', kept⟩ := holds.delete_valid valid
  cases run.symm.trans run'
  exact kept.mp colored

/-- The node of a valid tree has at most one child, and without it the tree is valid. -/
def goesWell [DecidableEq V] (t : Rbtree V) (i : Nat) : Bool :=
  t.readNodes.isSome &&
  (match t.get (.at i) with
  | .ok n => n.left = t.nil ∨ n.right = t.nil
  | .error _ => false) &&
  match t.delete (.at i) with
  | .ok t' => t'.readNodes.isSome
  | .error _ => false

theorem goesWell_sound [DecidableEq V] (well : t.goesWell i = true) : Lone t i ∧ Straight t i := by
  simp only [goesWell, Bool.and_eq_true, Option.isSome_iff_exists] at well
  obtain ⟨⟨⟨nodes, found⟩, children⟩, left⟩ := well
  have search := readNodes_search found
  constructor
  · split at children
    · rename_i n read
      exact ⟨n, read, of_decide_eq_true children⟩
    · cases children
  · split at left
    · rename_i t' run
      obtain ⟨nodes', found'⟩ := Option.isSome_iff_exists.mp left
      exact search.straight_iff.mpr (search.mendable_of_colored run (readNodes_search found').colored)
    · cases left

/-- For every valid tree and every key: `rbtree_insert` of an absent key leaves a valid tree with that
pair more, and of a present key one whose nodes are the same as before. -/
theorem insert_keeps_valid (h : Search t nodes) (key : Int) (v : V) :
    (key ∉ keys Entry.key nodes → ∃ t' front back, t.insert key v = .ok (t', .at t.fresh) ∧
      nodes = front ++ back ∧ Search t' (front ++ (t.fresh, ⟨key, v⟩) :: back)) ∧
    (key ∈ keys Entry.key nodes → ∃ t', t.insert key v = .ok (t', .at t.fresh) ∧ Search t' nodes ∧
      t'.root = t.root ∧ ∀ a, a ≠ t.fresh → t'.heap a = t.heap a) := by
  constructor
  · intro free
    obtain ⟨t', front, back, run, whole, search, _⟩ := h.insert v free
    exact ⟨t', front, back, run, whole, search⟩
  · intro known
    obtain ⟨t', run, search⟩ := h.insert_known v known
    obtain ⟨run', _⟩ := h.sorted.insert_known v known
    cases run.symm.trans run'
    exact ⟨_, run, search, rfl, fun a other => Function.update_of_ne other ..⟩

/-- Behind 10 and 20, the key 30 turns the tree at its root and 40 is followed by a change of colours;
then 20 goes in a second time. -/
theorem insert_keeps_valid_turned : ∃ t t₁ t₂ t₃ : Rbtree Nat,
    (create 0).insertAll [(10, 0), (20, 0)] = .ok t ∧ t.root = .at 1 ∧
      t.insert 30 7 = .ok (t₁, .at 3) ∧ t₁.root = .at 2 ∧
      Search t₁ [(1, ⟨10, 0⟩), (2, ⟨20, 0⟩), (3, ⟨30, 7⟩)] ∧
      t₁.insert 40 8 = .ok (t₂, .at 4) ∧
      Search t₂ [(1, ⟨10, 0⟩), (2, ⟨20, 0⟩), (3, ⟨30, 7⟩), (4, ⟨40, 8⟩)] ∧
      t₂.insert 20 9 = .ok (t₃, .at 5) ∧
      Search t₃ [(1, ⟨10, 0⟩), (2, ⟨20, 0⟩), (3, ⟨30, 7⟩), (4, ⟨40, 8⟩)] := by
  let before : NodeTree Nat := .node .black .nil 1 ⟨10, 0⟩ (.node .red .nil 2 ⟨20, 0⟩ .nil)
  let turned : NodeTree Nat := .node .black (.node .red .nil 1 ⟨10, 0⟩ .nil) 2 ⟨20, 0⟩
    (.node .red .nil 3 ⟨30, 7⟩ .nil)
  let coloured : NodeTree Nat := .node .black (.node .black .nil 1 ⟨10, 0⟩ .nil) 2 ⟨20, 0⟩
    (.node .black .nil 3 ⟨30, 7⟩ (.node .red .nil 4 ⟨40, 8⟩ .nil))
  have done : treeAll 1 .nil [(10, 0), (20, 0)] = some before := rfl
  have turns : RedBlack.insert Entry.key 3 ⟨30, 7⟩ before = some turned := rfl
  have colours : RedBlack.insert Entry.key 4 ⟨40, 8⟩ turned = some coloured := rfl
  obtain ⟨t, built, holds, fresh⟩ := (create_holds 0).insertAll rfl done
  have search : Search t before.toList := ⟨before, holds, by decide, by decide, rfl⟩
  have young : t.fresh = 3 := fresh
  rw [← young] at turns
  obtain ⟨t₁, run₁, holds₁, fresh₁, -⟩ := insert_absent holds rfl turns
  have young₁ : t₁.fresh = 4 := by rw [fresh₁, young]
  rw [← young₁] at colours
  obtain ⟨t₂, run₂, holds₂, fresh₂, -⟩ := insert_absent holds₁ rfl colours
  have young₂ : t₂.fresh = 5 := by rw [fresh₂, young₁]
  obtain ⟨_, _, _, run, _, search₁⟩ := (insert_keeps_valid search 30 7).1 (by decide)
  cases run₁.symm.trans run
  rw [search₁.weaken.unique ⟨turned, holds₁, rfl⟩] at search₁
  obtain ⟨_, _, _, run, _, search₂⟩ := (insert_keeps_valid search₁ 40 8).1 (by decide)
  cases run₂.symm.trans run
  rw [search₂.weaken.unique ⟨coloured, holds₂, rfl⟩] at search₂
  obtain ⟨t₃, run₃, search₃, _⟩ := (insert_keeps_valid search₂ 20 9).2 (by decide)
  rw [young] at run₁
  rw [young₁] at run₂
  rw [young₂] at run₃
  exact ⟨t, t₁, t₂, t₃, built, holds.root, run₁, holds₁.root, search₁, run₂, search₂, run₃, search₃⟩

/-- For every valid tree and every node of it: `rbtree_delete` ends without following a child of the
sentinel, in a tree with ordered keys and consistent pointers that holds exactly the other pairs. -/
theorem delete_removes_one (h : Search t nodes) (member : (i, e) ∈ nodes) :
    ∃ t' nodes' front back, t.delete (.at i) = .ok t' ∧ Sorted t' nodes' ∧
      nodes.map Prod.snd = front ++ e :: back ∧ nodes'.map Prod.snd = front ++ back ∧
      ChildlessNil t ∧ ChildlessNil t' := by
  have childless : ChildlessNil t := by
    obtain ⟨_, holds, _⟩ := h
    exact holds.childless
  rcases h.sorted.delete member with ⟨_, invalid⟩ | ⟨t', front, back, run, rfl, _, one, two, _⟩
  · exact absurd h invalid
  · have left : ∃ nodes', Sorted t' nodes' ∧
        nodes'.map Prod.snd = front.map Prod.snd ++ back.map Prod.snd := by
      by_cases lone : Lone t i
      · exact ⟨front ++ back, one lone, List.map_append⟩
      · obtain ⟨next, rest, rfl, sorted⟩ := two lone
        exact ⟨_, sorted, by simp⟩
    obtain ⟨nodes', sorted, same⟩ := left
    have childless' : ChildlessNil t' := by
      obtain ⟨_, holds, _⟩ := sorted
      exact holds.childless
    exact ⟨t', nodes', _, _, run, sorted, by simp, same, childless, childless'⟩

/-- Of six keys the root goes, which has two children. The next node takes its place, and the repair
turns the tree. -/
theorem delete_removes_one_root : ∃ t t' nodes', (create 0).insertAll
      [(10, 0), (20, 0), (30, 0), (40, 0), (50, 0), (60, 0)] = .ok t ∧ t.root = .at 2 ∧
    t.delete (.at 2) = .ok t' ∧ Sorted t' nodes' ∧
    nodes'.map Prod.snd = [⟨10, 0⟩, ⟨30, 0⟩, ⟨40, 0⟩, ⟨50, 0⟩, ⟨60, 0⟩] := by
  let tree : NodeTree Nat := .node .black (.node .black .nil 1 ⟨10, 0⟩ .nil) 2 ⟨20, 0⟩
    (.node .red (.node .black .nil 3 ⟨30, 0⟩ .nil) 4 ⟨40, 0⟩
      (.node .black .nil 5 ⟨50, 0⟩ (.node .red .nil 6 ⟨60, 0⟩ .nil)))
  have done : treeAll 1 .nil [(10, 0), (20, 0), (30, 0), (40, 0), (50, 0), (60, 0)] = some tree := rfl
  obtain ⟨t, built, holds, -⟩ := (create_holds 0).insertAll rfl done
  have search : Search t tree.toList := ⟨tree, holds, by decide, by decide, rfl⟩
  have member : (2, (⟨20, 0⟩ : Entry Nat)) ∈ tree.toList := by decide
  obtain ⟨t', nodes', front, back, run, sorted, whole, left, -⟩ := delete_removes_one search member
  refine ⟨t, t', nodes', built, holds.root, run, sorted, left.trans ?_⟩
  have distinct : (front ++ ⟨20, 0⟩ :: back).Nodup := by
    rw [← whole]
    decide
  have apart : ⟨20, 0⟩ ∉ front := fun member =>
    (List.nodup_append.mp distinct).2.2 _ member _ List.mem_cons_self rfl
  calc front ++ back = (front ++ ⟨20, 0⟩ :: back).erase ⟨20, 0⟩ := by
        rw [List.erase_append_right _ apart, List.erase_cons_head]
    _ = [⟨10, 0⟩, ⟨30, 0⟩, ⟨40, 0⟩, ⟨50, 0⟩, ⟨60, 0⟩] := by
        rw [← whole]
        rfl

/-- For every valid tree and every node of it: after `rbtree_delete` the colours and black heights are
right again exactly when the repair does not end in its last case on the right side. -/
theorem delete_balanced_iff (h : Search t nodes) (member : (i, e) ∈ nodes) :
    ∃ t', t.delete (.at i) = .ok t' ∧ (Colored t' ↔ Mendable t i) := by
  obtain ⟨path, c, l, r, holds, valid⟩ := h.place member
  obtain ⟨t', run, kept⟩ := holds.delete_valid valid
  exact ⟨t', run, h.mendable_of_colored run, fun mendable => kept.mpr (mendable path c l e r holds)⟩

/-- Of the keys 20, 10, 30 and 40 the least goes. Its sibling on the right has a red child, and the
repair turns the tree. -/
theorem delete_balanced_turned : ∃ t t' : Rbtree Nat,
    (create 0).insertAll [(20, 0), (10, 0), (30, 0), (40, 0)] = .ok t ∧ t.root = .at 1 ∧
      t.delete (.at 2) = .ok t' ∧ t'.root = .at 3 ∧ Colored t' ∧ Mendable t 2 := by
  let sibling : NodeTree Nat := .node .black .nil 3 ⟨30, 0⟩ (.node .red .nil 4 ⟨40, 0⟩ .nil)
  let path : NodePath Nat := [⟨.left, .black, 1, ⟨20, 0⟩, sibling⟩]
  let after : NodeTree Nat := .node .black (.node .black .nil 1 ⟨20, 0⟩ .nil) 3 ⟨30, 0⟩
    (.node .black .nil 4 ⟨40, 0⟩ .nil)
  have done : treeAll 1 .nil [(20, 0), (10, 0), (30, 0), (40, 0)] =
    some (Path.fill path (.node .black .nil 2 ⟨10, 0⟩ .nil)) := rfl
  obtain ⟨t, built, place, -⟩ := (create_holds 0).insertAll rfl done
  have search : Search t [(2, ⟨10, 0⟩), (1, ⟨20, 0⟩), (3, ⟨30, 0⟩), (4, ⟨40, 0⟩)] :=
    ⟨_, place, by decide, by decide, rfl⟩
  have deletes := delete_spec place
  have ends : RedBlack.delete path .black .nil 2 .nil = some (after, false) := rfl
  rw [ends] at deletes
  obtain ⟨t', run, holds, _⟩ := deletes
  have colored : Colored t' := ⟨after, holds, by decide⟩
  obtain ⟨_, run', kept⟩ := delete_balanced_iff search List.mem_cons_self
  cases run.symm.trans run'
  exact ⟨t, t', built, place.root, run, holds.root, colored, kept.mp colored⟩

/-- Of the keys 30, 20, 40 and 10 the greatest goes, which is the right child of the root. The left
child of the root then is a root with a red child on the left and a black one on the right. -/
theorem delete_unbalanced : ∃ t t' : Rbtree Nat,
    (create 0).insertAll [(30, 0), (20, 0), (40, 0), (10, 0)] = .ok t ∧
      Search t [(4, ⟨10, 0⟩), (2, ⟨20, 0⟩), (1, ⟨30, 0⟩), (3, ⟨40, 0⟩)] ∧
      t.delete (.at 3) = .ok t' ∧ ¬ Colored t' := by
  let entries : List (Int × Nat) := [(30, 0), (20, 0), (40, 0), (10, 0)]
  let sibling : NodeTree Nat := .node .black (.node .red .nil 4 ⟨10, 0⟩ .nil) 2 ⟨20, 0⟩ .nil
  let path : NodePath Nat := [⟨.right, .black, 1, ⟨30, 0⟩, sibling⟩]
  let left : NodeTree Nat := .node .black (.node .red .nil 4 ⟨10, 0⟩ .nil) 2 ⟨20, 0⟩
    (.node .black .nil 1 ⟨30, 0⟩ .nil)
  have done : treeAll 1 .nil entries = some (Path.fill path (.node .black .nil 3 ⟨40, 0⟩ .nil)) := rfl
  obtain ⟨t, run, place, -⟩ := (create_holds 0).insertAll rfl done
  have ends : RedBlack.delete path .black .nil 3 .nil = some (left, true) := rfl
  have deletes := delete_spec place
  rw [ends] at deletes
  obtain ⟨t', deleted, holds', _⟩ := deletes
  have spoiled : ¬ Valid left := by decide
  exact ⟨t, t', run, ⟨_, place, by decide, by decide, rfl⟩, deleted,
    fun colored => spoiled (holds'.colored_iff.mp colored)⟩

end Yamq.Rbtree
