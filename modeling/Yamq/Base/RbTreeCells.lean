import Yamq.Base.RbTree
import Mathlib.Data.List.Perm.Subperm

/-! The heap of an `Rbtree` holds a tree: the cells of its nodes, and of the nodes on a path. -/
namespace Yamq

open RedBlack

variable {V : Type}

abbrev NodeTree (V : Type) := Tree Nat (Entry V)
abbrev NodePath (V : Type) := Path Nat (Entry V)

namespace Rbtree

/-- The pointer to the root of a tree. The sentinel is at address 0. -/
def ptr : NodeTree V → Ptr
  | .nil => .at 0
  | .node _ _ i _ _ => .at i

/-- The pointer to the node above a place. -/
def above : NodePath V → Ptr
  | [] => .at 0
  | f :: _ => .at f.id

def cell (d : Dir) (near far parent : Ptr) (c : Color) (e : Entry V) : RbNode V :=
  ⟨d.pick near far, d.pick far near, parent, c, e⟩

def Cells (heap : Nat → Option (RbNode V)) : NodeTree V → Ptr → Prop
  | .nil, _ => True
  | .node c l i e r, parent =>
    heap i = some ⟨ptr l, ptr r, parent, c, e⟩ ∧ Cells heap l (.at i) ∧ Cells heap r (.at i)

/-- The cells of the nodes on a path and of the subtrees beside it, when `child` points to the
place. -/
def PathCells (heap : Nat → Option (RbNode V)) : NodePath V → Ptr → Prop
  | [], _ => True
  | f :: path, child =>
    heap f.id = some (cell f.dir child (ptr f.sib) (above path) f.color f.val) ∧
      Cells heap f.sib (.at f.id) ∧ PathCells heap path (.at f.id)

section cells
variable {heap heap' : Nat → Option (RbNode V)}

@[simp] theorem child_cell (d : Dir) (near far parent : Ptr) (c : Color) (e : Entry V) :
    (cell d near far parent c e).child d = near := by
  cases d <;> rfl

@[simp] theorem child_other_cell (d : Dir) (near far parent : Ptr) (c : Color) (e : Entry V) :
    (cell d near far parent c e).child d.other = far := by
  cases d <;> rfl

@[simp] theorem setChild_cell (d : Dir) (near far parent q : Ptr) (c : Color) (e : Entry V) :
    (cell d near far parent c e).setChild d q = cell d q far parent c e := by
  cases d <;> rfl

@[simp] theorem setChild_other_cell (d : Dir) (near far parent q : Ptr) (c : Color) (e : Entry V) :
    (cell d near far parent c e).setChild d.other q = cell d near q parent c e := by
  cases d <;> rfl

@[simp] theorem cell_parent (d : Dir) (near far parent : Ptr) (c : Color) (e : Entry V) :
    (cell d near far parent c e).parent = parent := rfl

@[simp] theorem cell_col (d : Dir) (near far parent : Ptr) (c : Color) (e : Entry V) :
    (cell d near far parent c e).col = c := rfl

@[simp] theorem cell_entry (d : Dir) (near far parent : Ptr) (c : Color) (e : Entry V) :
    (cell d near far parent c e).entry = e := rfl

@[simp] theorem ptr_nil : ptr (.nil : NodeTree V) = .at 0 := rfl

@[simp] theorem ptr_node (c : Color) (l : NodeTree V) (i : Nat) (e : Entry V) (r : NodeTree V) :
    ptr (.node c l i e r) = .at i := rfl

@[simp] theorem ptr_join (d : Dir) (c : Color) (t : NodeTree V) (i : Nat) (e : Entry V)
    (s : NodeTree V) : ptr (Tree.join d c t i e s) = .at i := by
  cases d <;> rfl

@[simp] theorem ptr_plug (f : Frame Nat (Entry V)) (t : NodeTree V) : ptr (f.plug t) = .at f.id :=
  ptr_join ..

@[simp] theorem ptr_paint (c : Color) (t : NodeTree V) : ptr (t.paint c) = ptr t := by
  cases t <;> rfl

theorem cells_join {d : Dir} {c : Color} {t s : NodeTree V} {i : Nat} {e : Entry V} {p : Ptr} :
    Cells heap (.join d c t i e s) p ↔ heap i = some (cell d (ptr t) (ptr s) p c e) ∧
      Cells heap t (.at i) ∧ Cells heap s (.at i) := by
  cases d
  · rfl
  · exact and_congr_right fun _ => and_comm

theorem ptr_fill (path : NodePath V) {t s : NodeTree V} (same : ptr t = ptr s) :
    ptr (Path.fill path t) = ptr (Path.fill path s) := by
  induction path generalizing t s with
  | nil => exact same
  | cons f path ih => exact ih (by simp)

theorem cells_fill {path : NodePath V} {t : NodeTree V} :
    Cells heap (Path.fill path t) (.at 0) ↔ PathCells heap path (ptr t) ∧ Cells heap t (above path) := by
  induction path generalizing t with
  | nil => simp [PathCells, above]
  | cons f path ih =>
    rw [Path.fill_cons, ih, Frame.plug, cells_join, ptr_join]
    simp only [PathCells, above]
    constructor
    · rintro ⟨path, cell, t, sib⟩
      exact ⟨⟨cell, sib, path⟩, t⟩
    · rintro ⟨⟨cell, sib, path⟩, t⟩
      exact ⟨path, cell, t, sib⟩

/-- Heaps that agree outside some addresses. -/
def Agree (changed : List Nat) (heap heap' : Nat → Option (RbNode V)) : Prop :=
  ∀ a, a ∉ changed → heap' a = heap a

theorem Agree.trans {changed : List Nat} {heap'' : Nat → Option (RbNode V)}
    (first : Agree changed heap heap') (second : Agree changed heap' heap'') :
    Agree changed heap heap'' :=
  fun a outside => (second a outside).trans (first a outside)

theorem Agree.mono {changed more : List Nat} (h : Agree changed heap heap')
    (sub : ∀ a ∈ changed, a ∈ more) : Agree more heap heap' :=
  fun a outside => h a fun member => outside (sub a member)

theorem Agree.one {a b : Nat} (h : Agree [b] heap heap') (other : a ≠ b) : heap' a = heap a :=
  h a (by simpa using other)

theorem cells_congr {t : NodeTree V} {p : Ptr} (same : ∀ a ∈ t.ids, heap' a = heap a)
    (h : Cells heap t p) : Cells heap' t p := by
  induction t generalizing p with
  | nil => trivial
  | node c l i e r ihl ihr =>
    simp only [Tree.ids_node, List.mem_append, List.mem_cons] at same
    obtain ⟨here, left, right⟩ := h
    exact ⟨(same i (.inr (.inl rfl))).trans here, ihl (fun a m => same a (.inl m)) left,
      ihr (fun a m => same a (.inr (.inr m))) right⟩

/-- The addresses on a path and beside it. -/
def pathIds : NodePath V → List Nat
  | [] => []
  | f :: path => f.id :: (f.sib.ids ++ pathIds path)

theorem pathCells_congr {path : NodePath V} {child : Ptr}
    (same : ∀ a ∈ pathIds path, heap' a = heap a) (h : PathCells heap path child) :
    PathCells heap' path child := by
  induction path generalizing child with
  | nil => trivial
  | cons f path ih =>
    simp only [pathIds, List.mem_cons, List.mem_append] at same
    obtain ⟨here, sib, rest⟩ := h
    exact ⟨(same f.id (.inl rfl)).trans here, cells_congr (fun a m => same a (.inr (.inl m))) sib,
      ih (fun a m => same a (.inr (.inr m))) rest⟩

theorem ids_fill (path : NodePath V) (t : NodeTree V) :
    (Path.fill path t).ids.Perm (t.ids ++ pathIds path) := by
  induction path generalizing t with
  | nil => simp [pathIds]
  | cons f path ih =>
    have plugged : (f.plug t).ids.Perm (t.ids ++ (f.id :: f.sib.ids)) := by
      obtain ⟨d, c, i, e, s⟩ := f
      cases d
      · simp [Frame.plug, Tree.join]
      · simp only [Frame.plug, Tree.join, Tree.ids_node]
        exact (List.perm_append_comm).trans (by simpa using List.perm_middle.symm)
    refine (ih _).trans ((plugged.append_right _).trans ?_)
    simp [pathIds]

theorem mem_ids_fill {path : NodePath V} {t : NodeTree V} {a : Nat} :
    a ∈ (Path.fill path t).ids ↔ a ∈ t.ids ∨ a ∈ pathIds path := by
  rw [(ids_fill path t).mem_iff, List.mem_append]

theorem nodup_ids_fill {path : NodePath V} {t : NodeTree V} :
    (Path.fill path t).ids.Nodup ↔ t.ids.Nodup ∧ (pathIds path).Nodup ∧
      ∀ a ∈ t.ids, a ∉ pathIds path := by
  rw [(ids_fill path t).nodup_iff, List.nodup_append]
  refine and_congr_right fun _ => and_congr_right fun _ => ?_
  exact ⟨fun h a m m' => h a m a m' rfl, fun h a m b m' same => h a m (same ▸ m')⟩

theorem mem_ids_join {d : Dir} {c : Color} {t s : NodeTree V} {i a : Nat} {e : Entry V} :
    a ∈ (Tree.join d c t i e s).ids ↔ a = i ∨ a ∈ t.ids ∨ a ∈ s.ids := by
  cases d <;> simp only [Tree.join, Tree.ids_node, List.mem_append, List.mem_cons] <;> tauto

theorem nodup_ids_join {d : Dir} {c : Color} {t s : NodeTree V} {i : Nat} {e : Entry V} :
    (Tree.join d c t i e s).ids.Nodup ↔ t.ids.Nodup ∧ s.ids.Nodup ∧ i ∉ t.ids ∧ i ∉ s.ids ∧
      ∀ a ∈ t.ids, a ∉ s.ids := by
  have one : (RedBlack.Tree.node c t i e s).ids.Nodup ↔ t.ids.Nodup ∧ s.ids.Nodup ∧ i ∉ t.ids ∧
      i ∉ s.ids ∧ ∀ a ∈ t.ids, a ∉ s.ids := by
    simp only [Tree.ids_node, List.nodup_append, List.nodup_cons, List.mem_cons]
    constructor
    · rintro ⟨nt, ⟨is, ns⟩, ts⟩
      exact ⟨nt, ns, fun m => ts i m i (.inl rfl) rfl, is, fun a m m' => ts a m a (.inr m') rfl⟩
    · rintro ⟨nt, ns, it, is, ts⟩
      refine ⟨nt, ⟨is, ns⟩, ?_⟩
      rintro a m b (rfl | m') same
      · exact it (same ▸ m)
      · exact ts a m (same ▸ m')
  cases d with
  | left => exact one
  | right =>
    have swap : (RedBlack.Tree.node c s i e t).ids.Perm (RedBlack.Tree.node c t i e s).ids := by
      simp only [Tree.ids_node]
      exact List.perm_append_comm.trans (by simpa using List.perm_middle.symm)
    exact swap.nodup_iff.trans one

end cells

/-- The state of an `Rbtree` holds a tree. Other cells may be allocated beside it. -/
structure Holds (t : Rbtree V) (tree : NodeTree V) : Prop where
  nil : t.nil = .at 0
  root : t.root = ptr tree
  cells : Cells t.heap tree (.at 0)
  sentinel : ∃ n, t.heap 0 = some n ∧ n.left = .null ∧ n.right = .null ∧ n.col = .black
  apart : 0 ∉ tree.ids
  distinct : tree.ids.Nodup
  allocated : ∀ a ∈ tree.ids, a < t.fresh
  start : 0 < t.fresh

instance cellsDecidable [DecidableEq V] (heap : Nat → Option (RbNode V)) :
    (tree : NodeTree V) → (p : Ptr) → Decidable (Cells heap tree p)
  | .nil, _ => .isTrue trivial
  | .node c l i e r, p =>
    have := cellsDecidable heap l (.at i)
    have := cellsDecidable heap r (.at i)
    inferInstanceAs (Decidable (heap i = some ⟨ptr l, ptr r, p, c, e⟩ ∧ _ ∧ _))

instance [DecidableEq V] (t : Rbtree V) (tree : NodeTree V) : Decidable (Holds t tree) :=
  decidable_of_iff (t.nil = .at 0 ∧ t.root = ptr tree ∧ Cells t.heap tree (.at 0) ∧
    (t.heap 0).any (fun n => n.left = .null ∧ n.right = .null ∧ n.col = .black) ∧ 0 ∉ tree.ids ∧
    tree.ids.Nodup ∧ (∀ a ∈ tree.ids, a < t.fresh) ∧ 0 < t.fresh) (by
    simp only [Option.any_eq_true, decide_eq_true_eq]
    exact ⟨fun ⟨a, b, c, d, e, f, g, h⟩ => ⟨a, b, c, d, e, f, g, h⟩,
      fun ⟨a, b, c, d, e, f, g, h⟩ => ⟨a, b, c, d, e, f, g, h⟩⟩)

/-- The tree below a pointer, down to a depth. -/
def readTree (t : Rbtree V) : Nat → Ptr → Option (NodeTree V)
  | 0, _ => none
  | _ + 1, .null => none
  | _ + 1, .wild => none
  | depth + 1, .at a =>
    if t.nil = .at a then some .nil
    else do
      let n ← t.heap a
      return .node n.col (← t.readTree depth n.left) a n.entry (← t.readTree depth n.right)

/-- What the operations leave alone: the sentinel's address, the allocation, the other cells. -/
structure Keeps (changed : List Nat) (t t' : Rbtree V) : Prop where
  nil : t'.nil = t.nil
  fresh : t'.fresh = t.fresh
  heap : Agree changed t.heap t'.heap

theorem Keeps.refl (changed : List Nat) (t : Rbtree V) : Keeps changed t t :=
  ⟨rfl, rfl, fun _ _ => rfl⟩

theorem Keeps.trans {changed : List Nat} {t t' t'' : Rbtree V} (first : Keeps changed t t')
    (second : Keeps changed t' t'') : Keeps changed t t'' :=
  ⟨second.nil.trans first.nil, second.fresh.trans first.fresh, first.heap.trans second.heap⟩

theorem Keeps.mono {changed more : List Nat} {t t' : Rbtree V} (h : Keeps changed t t')
    (sub : ∀ a ∈ changed, a ∈ more) : Keeps more t t' :=
  ⟨h.nil, h.fresh, h.heap.mono sub⟩

section access
variable {t : Rbtree V} {a : Nat} {n : RbNode V}

theorem get_at (here : t.heap a = some n) : t.get (.at a) = .ok n := by
  simp only [get, here]

theorem modify_at (here : t.heap a = some n) (f : RbNode V → RbNode V) :
    t.modify (.at a) f = .ok (t.put a (some (f n))) := by
  simp only [modify, get_at here, ok_bind, pure_ok]

@[simp] theorem put_heap (t : Rbtree V) (a : Nat) (n : Option (RbNode V)) :
    (t.put a n).heap = Function.update t.heap a n := rfl

@[simp] theorem put_nil (t : Rbtree V) (a : Nat) (n : Option (RbNode V)) : (t.put a n).nil = t.nil :=
  rfl

@[simp] theorem put_root (t : Rbtree V) (a : Nat) (n : Option (RbNode V)) :
    (t.put a n).root = t.root := rfl

@[simp] theorem put_fresh (t : Rbtree V) (a : Nat) (n : Option (RbNode V)) :
    (t.put a n).fresh = t.fresh := rfl

theorem put_agree (t : Rbtree V) (a : Nat) (n : Option (RbNode V)) :
    Agree [a] t.heap (t.put a n).heap := by
  intro b outside
  rw [put_heap, Function.update_of_ne (by simpa using outside)]

theorem put_keeps (t : Rbtree V) (a : Nat) (n : Option (RbNode V)) : Keeps [a] t (t.put a n) :=
  ⟨rfl, rfl, put_agree t a n⟩

end access

section holds
variable {t t' : Rbtree V} {tree tree' : NodeTree V} {path : NodePath V} {l r x : NodeTree V}
  {i : Nat} {e : Entry V} {c : Color} {d : Dir}

theorem Holds.update (h : Holds t tree) (keeps : Keeps tree.ids t t')
    (ids : tree'.ids.Perm tree.ids) (root : t'.root = ptr tree')
    (cells : Cells t'.heap tree' (.at 0)) : Holds t' tree' where
  nil := keeps.nil.trans h.nil
  root := root
  cells := cells
  sentinel := by
    rw [keeps.heap 0 h.apart]
    exact h.sentinel
  apart := fun member => h.apart (ids.mem_iff.mp member)
  distinct := ids.nodup_iff.mpr h.distinct
  allocated := by
    intro a member
    rw [keeps.fresh]
    exact h.allocated a (ids.mem_iff.mp member)
  start := by
    rw [keeps.fresh]
    exact h.start

theorem Holds.at_join (h : Holds t (Path.fill path (.join d c l i e r))) :
    t.heap i = some (cell d (ptr l) (ptr r) (above path) c e) :=
  (cells_join.mp (cells_fill.mp h.cells).2).1

theorem Holds.at_node (h : Holds t (Path.fill path (.node c l i e r))) :
    t.heap i = some ⟨ptr l, ptr r, above path, c, e⟩ :=
  (cells_fill.mp h.cells).2.1

theorem Holds.col_at (h : Holds t (Path.fill path x)) :
    ∃ n, t.get (ptr x) = .ok n ∧ n.col = x.color := by
  cases x with
  | nil =>
    obtain ⟨n, here, _, _, col⟩ := h.sentinel
    exact ⟨n, get_at here, col⟩
  | node c l i e r => exact ⟨_, get_at h.at_node, rfl⟩

theorem Holds.modify_node (h : Holds t (Path.fill path (.node c l i e r)))
    {f : RbNode V → RbNode V} {c' : Color} {e' : Entry V}
    (result : f ⟨ptr l, ptr r, above path, c, e⟩ = ⟨ptr l, ptr r, above path, c', e'⟩) :
    ∃ t', t.modify (.at i) f = .ok t' ∧ Holds t' (Path.fill path (.node c' l i e' r)) ∧
      Keeps [i] t t' := by
  have here := h.at_node
  refine ⟨_, modify_at here f, ?_, put_keeps ..⟩
  obtain ⟨inside, outside, disjoint⟩ := nodup_ids_fill.mp h.distinct
  simp only [Tree.ids_node, List.nodup_append, List.nodup_cons] at inside
  obtain ⟨pathCells, _, left, right⟩ := cells_fill.mp h.cells
  have notPath : i ∉ pathIds path := disjoint i (by simp)
  have notLeft : ∀ a ∈ l.ids, a ≠ i := fun a m same => inside.2.2 a m i (by simp) same
  have notRight : ∀ a ∈ r.ids, a ≠ i := fun a m same => inside.2.1.1 (same ▸ m)
  have ids : (Path.fill path (.node c' l i e' r)).ids.Perm
      (Path.fill path (.node c l i e r)).ids := by
    refine (ids_fill ..).trans (List.Perm.trans ?_ (ids_fill ..).symm)
    simp
  refine h.update ((put_keeps ..).mono ?_) ids ?_ ?_
  · intro a member
    rw [List.mem_singleton.mp member, mem_ids_fill]
    simp
  · rw [put_root, h.root]
    exact ptr_fill path rfl
  · rw [cells_fill]
    refine ⟨pathCells_congr ?_ pathCells, ?_, cells_congr ?_ left, cells_congr ?_ right⟩
    · intro a member
      rw [put_heap, Function.update_of_ne]
      exact fun same => notPath (same ▸ member)
    · rw [put_heap, Function.update_self, result]
    · intro a member
      rw [put_heap, Function.update_of_ne (notLeft a member)]
    · intro a member
      rw [put_heap, Function.update_of_ne (notRight a member)]

theorem Holds.setCol_node (h : Holds t (Path.fill path (.node c l i e r))) (c' : Color) :
    ∃ t', t.setCol (.at i) c' = .ok t' ∧ Holds t' (Path.fill path (.node c' l i e r)) ∧
      Keeps [i] t t' :=
  h.modify_node rfl

theorem Holds.setEntry_node (h : Holds t (Path.fill path (.node c l i e r))) (e' : Entry V) :
    ∃ t', t.setEntry (.at i) e' = .ok t' ∧ Holds t' (Path.fill path (.node c l i e' r)) ∧
      Keeps [i] t t' :=
  h.modify_node rfl

/-- Painting a subtree's root black; the sentinel is black already. -/
theorem Holds.setCol_black (h : Holds t (Path.fill path x)) :
    ∃ t', t.setCol (ptr x) .black = .ok t' ∧ Holds t' (Path.fill path (x.paint .black)) ∧
      Keeps x.ids t t' := by
  cases x with
  | nil =>
    obtain ⟨n, here, left, right, col⟩ := h.sentinel
    have same : t.put 0 (some { n with col := .black }) = t := by
      have unchanged : some { n with col := Color.black } = t.heap 0 := by
        rw [here, ← col]
      rw [put, unchanged, Function.update_eq_self]
    exact ⟨t, (modify_at here _).trans (congrArg _ same), h, .refl ..⟩
  | node c l i e r =>
    obtain ⟨t', run, holds, keeps⟩ := h.setCol_node .black
    exact ⟨t', run, holds, keeps.mono (by simp)⟩

theorem fill_other (d : Dir) (c : Color) (x : NodeTree V) (i : Nat) (e : Entry V) (y : NodeTree V)
    (path : NodePath V) : Path.fill (⟨d.other, c, i, e, x⟩ :: path) y =
      Path.fill path (.join d c x i e y) := by
  cases d <;> rfl

/-- The two children of a node have different pointers, unless both are missing. -/
theorem Holds.children_ne {y : NodeTree V} (h : Holds t (Path.fill path (.join d c x i e y)))
    (some_ : x ≠ .nil ∨ y ≠ .nil) : ptr x ≠ ptr y := by
  obtain ⟨distinct, _⟩ := nodup_ids_fill.mp h.distinct
  obtain ⟨_, _, _, _, disjoint⟩ := nodup_ids_join.mp distinct
  have apart := h.apart
  simp only [mem_ids_fill, mem_ids_join, not_or] at apart
  obtain ⟨⟨_, x0, y0⟩, _⟩ := apart
  intro same
  cases x with
  | nil =>
    cases y with
    | nil => exact some_.elim (absurd rfl) (absurd rfl)
    | node c l j e r =>
      rw [ptr_nil, ptr_node, Ptr.at.injEq] at same
      exact y0 (by simp [same])
  | node c l j e r =>
    cases y with
    | nil =>
      rw [ptr_nil, ptr_node, Ptr.at.injEq] at same
      exact x0 (by simp [same])
    | node c' l' j' e' r' =>
      rw [ptr_node, ptr_node, Ptr.at.injEq] at same
      exact disjoint j (by simp) (by simp [same])

/-- The test by which the source finds the side of a child. -/
theorem Holds.side {y : NodeTree V} (h : Holds t (Path.fill path (.join d c x i e y)))
    (some_ : x ≠ .nil ∨ y ≠ .nil) :
    (if ptr x = (cell d (ptr x) (ptr y) (above path) c e).left then Dir.left else .right) = d := by
  have ne := h.children_ne some_
  cases d with
  | left => exact if_pos rfl
  | right => exact if_neg ne

/-- The addresses of the nodes are below `fresh` and apart from the sentinel's. -/
theorem Holds.length_lt (h : Holds t tree) : tree.ids.length < t.fresh := by
  have inside : tree.ids ⊆ List.range' 1 (t.fresh - 1) := by
    intro a member
    have below := h.allocated a member
    have notNil : a ≠ 0 := fun same => h.apart (same ▸ member)
    rw [List.mem_range'_1]
    omega
  have short := (List.subperm_of_subset h.distinct inside).length_le
  have start := h.start
  rw [List.length_range'] at short
  omega

theorem length_le_pathIds (path : NodePath V) : path.length ≤ (pathIds path).length := by
  induction path with
  | nil => exact Nat.le_refl 0
  | cons f path ih =>
    simp only [pathIds, List.length_cons, List.length_append]
    omega

/-- A path is shorter than the fuel of a loop that climbs it. -/
theorem Holds.path_lt (h : Holds t (Path.fill path x)) : path.length < t.fresh := by
  have longer := (ids_fill path x).length_eq
  have fits := h.length_lt
  have short := length_le_pathIds path
  simp only [List.length_append] at longer
  omega

end holds

end Rbtree
end Yamq
