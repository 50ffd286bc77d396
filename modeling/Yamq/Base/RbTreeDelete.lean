import Yamq.Base.RbTreeInsert
import Yamq.Lib.RedBlack.Rebalance

/-! `rbtree_delete` on the heap does what the deletion on trees does, for nodes of any colours. Where
the deletion on trees has no result, the source follows a child pointer of the sentinel. -/
namespace Yamq.Rbtree

open RedBlack

variable {V : Type} {t t' : Rbtree V}

/-- A place in the tree that the heap holds. The root of its subtree points to the node above, and so
does the sentinel while it stands there. -/
structure Focus (t : Rbtree V) (path : NodePath V) (x : NodeTree V) : Prop where
  holds : Holds t (Path.fill path x)
  placed : ∃ n, t.get (ptr x) = .ok n ∧ n.parent = above path ∧ n.col = x.color

section
variable {path path' : NodePath V} {d : Dir} {c : Color} {i : Nat} {e : Entry V} {x w : NodeTree V}

theorem Holds.focus (h : Holds t (Path.fill path x)) (some_ : x ≠ .nil) : Focus t path x := by
  cases x with
  | nil => exact absurd rfl some_
  | node c l i e r => exact ⟨h, _, get_at h.at_node, rfl, rfl⟩

/-- Writes to nodes of the tree leave the sentinel's parent pointer alone. -/
theorem Focus.kept {ids : List Nat} (f : Focus t path x) (keeps : Keeps ids t t')
    (inside : ∀ a ∈ ids, a ∈ (Path.fill path x).ids) (h : Holds t' (Path.fill path' x))
    (head : above path' = above path) : Focus t' path' x := by
  cases x with
  | nil =>
    have same : t'.heap 0 = t.heap 0 := keeps.heap 0 fun member => f.holds.apart (inside 0 member)
    obtain ⟨n, read, parent, col⟩ := f.placed
    refine ⟨h, n, ?_, parent.trans head.symm, col⟩
    simpa only [get, ptr_nil, same] using read
  | node c l i e r => exact h.focus Tree.node_ne_nil

theorem Holds.as_sibling (h : Holds t (Path.fill (⟨d, c, i, e, w⟩ :: path) x)) :
    Holds t (Path.fill (⟨d.other, c, i, e, x⟩ :: path) w) := by
  rw [fill_other]
  exact h

theorem Holds.of_sibling (h : Holds t (Path.fill (⟨d.other, c, i, e, x⟩ :: path) w)) :
    Holds t (Path.fill (⟨d, c, i, e, w⟩ :: path) x) := by
  rw [fill_other] at h
  exact h

theorem mem_fill_frame {a : Nat} : a ∈ (Path.fill (⟨d, c, i, e, w⟩ :: path) x).ids ↔
    a = i ∨ a ∈ x.ids ∨ a ∈ w.ids ∨ a ∈ pathIds path := by
  rw [Path.fill_cons, mem_ids_fill, Frame.plug, mem_ids_join]
  tauto

theorem Focus.setCol_parent (f : Focus t (⟨d, c, i, e, w⟩ :: path) x) (c' : Color) :
    ∃ t', t.setCol (.at i) c' = .ok t' ∧ Focus t' (⟨d, c', i, e, w⟩ :: path) x ∧
      t'.fresh = t.fresh := by
  have node : Holds t (Path.fill path (.node c (d.pick x w) i e (d.pick w x))) := by
    cases d <;> exact f.holds
  obtain ⟨t', run, holds, keeps⟩ := node.setCol_node c'
  have whole : Holds t' (Path.fill (⟨d, c', i, e, w⟩ :: path) x) := by
    cases d <;> exact holds
  refine ⟨t', run, f.kept keeps ?_ whole rfl, keeps.fresh⟩
  intro a member
  exact mem_fill_frame.mpr (.inl (List.mem_singleton.mp member))

theorem Focus.paint_sibling {w' : NodeTree V} {ids : List Nat}
    (f : Focus t (⟨d, c, i, e, w⟩ :: path) x) (keeps : Keeps ids t t')
    (inside : ∀ a ∈ ids, a ∈ w.ids)
    (h : Holds t' (Path.fill (⟨d.other, c, i, e, x⟩ :: path) w')) :
    Focus t' (⟨d, c, i, e, w'⟩ :: path) x ∧ t'.fresh = t.fresh :=
  ⟨f.kept keeps (fun a member => mem_fill_frame.mpr (.inr (.inr (.inl (inside a member)))))
    h.of_sibling rfl, keeps.fresh⟩

theorem Focus.setCol_sibling {wc : Color} {wl wr : NodeTree V} {wi : Nat} {we : Entry V}
    (f : Focus t (⟨d, c, i, e, .node wc wl wi we wr⟩ :: path) x) (c' : Color) :
    ∃ t', t.setCol (.at wi) c' = .ok t' ∧
      Focus t' (⟨d, c, i, e, .node c' wl wi we wr⟩ :: path) x ∧ t'.fresh = t.fresh := by
  obtain ⟨t', run, holds, keeps⟩ := f.holds.as_sibling.setCol_node c'
  exact ⟨t', run, f.paint_sibling keeps (by simp) holds⟩

theorem Focus.read_parent (f : Focus t (⟨d, c, i, e, w⟩ :: path) x) :
    t.get (.at i) = .ok (cell d (ptr x) (ptr w) (above path) c e) :=
  get_at (Holds.at_join f.holds)

/-- A red sibling goes on top and gives way to its near child. -/
theorem delCase1_red {wl wr : NodeTree V} {wi : Nat} {we : Entry V}
    (f : Focus t (⟨d, c, i, e, .node .red wl wi we wr⟩ :: path) x) :
    ∃ t', t.delCase1 d (ptr x) (.at wi) = .ok (t', ptr (d.pick wl wr)) ∧
      Focus t' (⟨d, .red, i, e, d.pick wl wr⟩ :: ⟨d, .black, wi, we, d.pick wr wl⟩ :: path) x ∧
      t'.fresh = t.fresh := by
  have readw := get_at f.holds.as_sibling.at_node
  obtain ⟨t1, w1, f1, fresh1⟩ := f.setCol_sibling .black
  obtain ⟨t2, w2, f2, fresh2⟩ := f1.setCol_parent .red
  have h2 : Holds t2 (Path.fill path
      (.join d .red x i e (.join d .black (d.pick wl wr) wi we (d.pick wr wl)))) := by
    rw [Tree.join_pick]
    exact f2.holds
  obtain ⟨t3, w3, h3, k3⟩ := h2.rotate
  have f3 : Focus t3 (⟨d, .red, i, e, d.pick wl wr⟩ ::
      ⟨d, .black, wi, we, d.pick wr wl⟩ :: path) x := by
    refine f2.kept k3 (fun a member => ?_) h3 rfl
    rw [Tree.join_pick] at member
    exact member
  obtain ⟨n1, read1, parent1, _⟩ := f1.placed
  obtain ⟨n3, read3, parent3, _⟩ := f3.placed
  refine ⟨t3, ?_, f3, k3.fresh.trans (fresh2.trans fresh1)⟩
  simp only [delCase1, readw, ok_bind, if_true, w1, read1, parent1, above, w2, w3, read3, parent3,
    f3.read_parent, child_other_cell, pure_ok]

theorem delCase1_black (f : Focus t (⟨d, c, i, e, w⟩ :: path) x) (black : w.color = .black) :
    t.delCase1 d (ptr x) (ptr w) = .ok (t, ptr w) := by
  obtain ⟨n, read, col⟩ := f.holds.as_sibling.col_at
  have notRed : n.col ≠ .red := by
    rw [col, black]
    decide
  simp only [delCase1, read, ok_bind, if_neg notRed, pure_ok]

theorem bothBlack_node {wc : Color} {wl wr : NodeTree V} {wi : Nat} {we : Entry V}
    (h : Holds t (Path.fill path (.node wc wl wi we wr))) :
    t.bothBlack (.at wi) = .ok (decide (wl.color = .black ∧ wr.color = .black)) := by
  have left : Holds t (Path.fill (⟨.left, wc, wi, we, wr⟩ :: path) wl) := h
  have right : Holds t (Path.fill (⟨.right, wc, wi, we, wl⟩ :: path) wr) := h
  obtain ⟨nl, readl, coll⟩ := left.col_at
  obtain ⟨nr, readr, colr⟩ := right.col_at
  simp only [bothBlack, get_at h.at_node, ok_bind, readl, readr, coll, colr, pure_ok]
  split
  · rename_i black
    simp [black]
  · rename_i red
    simp [red]

/-- The sentinel has no children to look at. -/
theorem bothBlack_nil {tree : NodeTree V} (h : Holds t tree) :
    t.bothBlack (.at 0) = .error .nullPointer := by
  obtain ⟨n, here, left, _⟩ := h.sentinel
  have null : t.get n.left = .error .nullPointer := by
    rw [left]
    rfl
  simp only [bothBlack, get_at here, ok_bind, null, error_bind]

/-- Cases 2 to 4, for a black sibling `w`. -/
def delBlack (d : Dir) (t : Rbtree V) (x w : Ptr) : Except Fault (Rbtree V × Ptr) := do
  if ← t.bothBlack w then
    let t ← t.setCol w .red
    return (t, (← t.get x).parent)
  else
    let (t, w) ← t.delCase3 d x w
    t.delCase4 d x w

theorem delFixupSide_eq (d : Dir) (t : Rbtree V) (x : Ptr) : t.delFixupSide d x = (do
    let w := (← t.get (← t.get x).parent).child d.other
    let (t, w) ← t.delCase1 d x w
    t.delBlack d x w) := rfl

/-- A red near child rises above the sibling, when the far child is black. -/
theorem delCase3_near {wl wr nl nr : NodeTree V} {wc : Color} {wi ni : Nat} {we ne : Entry V}
    (f : Focus t (⟨d, c, i, e, .node wc wl wi we wr⟩ :: path) x)
    (far : (d.pick wr wl).color = .black) (near : d.pick wl wr = .node .red nl ni ne nr) :
    ∃ t', t.delCase3 d (ptr x) (.at wi) = .ok (t', .at ni) ∧
      Focus t' (⟨d, c, i, e, .join d .black (d.pick nl nr) ni ne
        (.join d .red (d.pick nr nl) wi we (d.pick wr wl))⟩ :: path) x ∧
      t'.fresh = t.fresh := by
  have hw : Holds t (Path.fill (⟨d.other, c, i, e, x⟩ :: path)
      (.join d wc (d.pick wl wr) wi we (d.pick wr wl))) := by
    rw [Tree.join_pick]
    exact f.holds.as_sibling
  have hfar : Holds t (Path.fill (⟨d.other, wc, wi, we, d.pick wl wr⟩ ::
      ⟨d.other, c, i, e, x⟩ :: path) (d.pick wr wl)) := by
    rw [fill_other]
    exact hw
  have hnear : Holds t (Path.fill (⟨d, wc, wi, we, d.pick wr wl⟩ ::
      ⟨d.other, c, i, e, x⟩ :: path) (.node .red nl ni ne nr)) := by
    rw [← near]
    exact hw
  obtain ⟨n, readFar, colFar⟩ := hfar.col_at
  have readw := get_at hw.at_join
  rw [near, ptr_node] at readw
  -- the near child turns black, the sibling red
  obtain ⟨t1, w1, h1, k1⟩ := hnear.setCol_node .black
  have h1w : Holds t1 (Path.fill (⟨d.other, c, i, e, x⟩ :: path)
      (.node wc (d.pick (.node .black nl ni ne nr) (d.pick wr wl)) wi we
        (d.pick (d.pick wr wl) (.node .black nl ni ne nr)))) := by
    cases d <;> exact h1
  have nearIds : ∀ a ∈ [ni], a ∈ (RedBlack.Tree.node wc wl wi we wr).ids := by
    intro a member
    rw [List.mem_singleton.mp member, ← Tree.join_pick d, mem_ids_join, near]
    exact .inr (.inl (by simp))
  obtain ⟨f1, fresh1⟩ := f.paint_sibling k1 nearIds h1w
  obtain ⟨t2, w2, f2, fresh2⟩ := f1.setCol_sibling .red
  -- and sinks away from it
  have h2 : Holds t2 (Path.fill (⟨d.other, c, i, e, x⟩ :: path) (.join d.other .red (d.pick wr wl) wi
      we (.join d.other .black (d.pick nr nl) ni ne (d.pick nl nr)))) := by
    have whole := f2.holds.as_sibling
    cases d <;> exact whole
  obtain ⟨t3, w3, h3, k3⟩ := h2.rotate
  have h3' : Holds t3 (Path.fill (⟨d.other, c, i, e, x⟩ :: path) (.join d .black (d.pick nl nr) ni ne
      (.join d .red (d.pick nr nl) wi we (d.pick wr wl)))) := by
    cases d <;> exact h3
  have f3 : Focus t3 (⟨d, c, i, e, .join d .black (d.pick nl nr) ni ne
      (.join d .red (d.pick nr nl) wi we (d.pick wr wl))⟩ :: path) x := by
    refine f2.kept k3 (fun a member => ?_) h3'.of_sibling rfl
    cases d <;> exact member
  obtain ⟨n3, read3, parent3, _⟩ := f3.placed
  refine ⟨t3, ?_, f3, k3.fresh.trans (fresh2.trans fresh1)⟩
  have read := f3.read_parent
  rw [ptr_join] at read
  simp only [delCase3, readw, ok_bind, child_other_cell, readFar, colFar, far, if_true, child_cell, w1,
    w2, w3, read3, parent3, above, read, pure_ok]

theorem delCase3_far {wl wr : NodeTree V} {wc : Color} {wi : Nat} {we : Entry V}
    (f : Focus t (⟨d, c, i, e, .node wc wl wi we wr⟩ :: path) x)
    (far : (d.pick wr wl).color = .red) :
    t.delCase3 d (ptr x) (.at wi) = .ok (t, .at wi) := by
  have hw : Holds t (Path.fill (⟨d.other, c, i, e, x⟩ :: path)
      (.join d wc (d.pick wl wr) wi we (d.pick wr wl))) := by
    rw [Tree.join_pick]
    exact f.holds.as_sibling
  have hfar : Holds t (Path.fill (⟨d.other, wc, wi, we, d.pick wl wr⟩ ::
      ⟨d.other, c, i, e, x⟩ :: path) (d.pick wr wl)) := by
    rw [fill_other]
    exact hw
  obtain ⟨n, readFar, colFar⟩ := hfar.col_at
  have notBlack : n.col ≠ .black := by
    rw [colFar, far]
    decide
  simp only [delCase3, get_at hw.at_join, ok_bind, child_other_cell, readFar, if_neg notBlack, pure_ok]

/-- The last case, whose paint goes to the right child of the sibling. -/
theorem delCase4_spec {wl wr : NodeTree V} {wc : Color} {wi : Nat} {we : Entry V}
    (f : Focus t (⟨d, c, i, e, .node wc wl wi we wr⟩ :: path) x) :
    ∃ t', t.delCase4 d (ptr x) (.at wi) = .ok (t', t'.root) ∧
      Holds t' (Path.fill path (settle d c x i e (d.pick wl wr) wi we (d.pick wr wl))) ∧
      t'.fresh = t.fresh := by
  obtain ⟨n, read, parent, _⟩ := f.placed
  obtain ⟨t1, w1, f1, fresh1⟩ := f.setCol_sibling c
  obtain ⟨t2, w2, f2, fresh2⟩ := f1.setCol_parent .black
  have right : Holds t2 (Path.fill (⟨.right, c, wi, we, wl⟩ ::
      ⟨d.other, .black, i, e, x⟩ :: path) wr) := f2.holds.as_sibling
  obtain ⟨t3, w3, h3, k3⟩ := right.setCol_black
  have h3' : Holds t3 (Path.fill (⟨d.other, .black, i, e, x⟩ :: path)
      (.node c wl wi we (wr.paint .black))) := h3
  have turn : Holds t3 (Path.fill path (.join d .black x i e
      (.join d c (d.pick wl (wr.paint .black)) wi we (d.pick (wr.paint .black) wl)))) := by
    rw [Tree.join_pick]
    exact h3'.of_sibling
  obtain ⟨t4, w4, h4, k4⟩ := turn.rotate
  refine ⟨t4, ?_, ?_, k4.fresh.trans (k3.fresh.trans (fresh2.trans fresh1))⟩
  · simp only [delCase4, read, ok_bind, parent, above, f.read_parent, cell_col, w1, w2,
      get_at f2.holds.as_sibling.at_node, w3, w4, pure_ok]
  · cases d <;> exact h4

theorem delCase4_join {near far : NodeTree V} {wc : Color} {wi : Nat} {we : Entry V}
    (f : Focus t (⟨d, c, i, e, .join d wc near wi we far⟩ :: path) x) :
    ∃ t', t.delCase4 d (ptr x) (.at wi) = .ok (t', t'.root) ∧
      Holds t' (Path.fill path (settle d c x i e near wi we far)) ∧ t'.fresh = t.fresh := by
  cases d <;> exact delCase4_spec f

/-- How a case analysis on a black sibling ends on the heap. -/
def Ends (t : Rbtree V) (path : NodePath V) (r : Except Fault (Rbtree V × Ptr)) :
    Option (Outcome Nat (Entry V)) → Prop
  | none => r = .error .nullPointer
  | some (.up u) => ∃ t', r = .ok (t', ptr u) ∧ Holds t' (Path.fill path u) ∧ t'.fresh = t.fresh
  | some (.done u) => ∃ t', r = .ok (t', t'.root) ∧ Holds t' (Path.fill path u) ∧ t'.fresh = t.fresh

theorem delBlack_spec (f : Focus t (⟨d, c, i, e, w⟩ :: path) x) :
    Ends t path (t.delBlack d (ptr x) (ptr w)) (fixAt d x c i e w) := by
  cases w with
  | nil =>
    have null := bothBlack_nil f.holds
    simp only [fixAt, Ends, delBlack, ptr_nil, null, error_bind]
  | node wc wl wi we wr =>
    obtain ⟨o, ends⟩ := fixAt_node d x c i e wc wl wi we wr
    have both := bothBlack_node f.holds.as_sibling
    obtain ⟨_, _, _, _, _, same, cases_⟩ := fixAt_cases ends
    cases same
    rw [ends]
    rcases cases_ with ⟨left, right, rfl⟩ | ⟨nc, nl, ni, ne, nr, near, rfl, far, rfl⟩ | ⟨far, rfl⟩
    · obtain ⟨t1, w1, f1, fresh1⟩ := f.setCol_sibling .red
      obtain ⟨n, read, parent, _⟩ := f1.placed
      refine ⟨t1, ?_, f1.holds, fresh1⟩
      simp only [delBlack, ptr_node, both, left, right, and_self, decide_true, if_true, w1, ok_bind,
        read, parent, above, ptr_join, pure_ok]
    · obtain ⟨t1, w1, f1, fresh1⟩ := delCase3_near f far near
      obtain ⟨t2, w2, h2, fresh2⟩ := delCase4_join f1
      refine ⟨t2, ?_, h2, fresh2.trans fresh1⟩
      have someRed : ¬ (wl.color = .black ∧ wr.color = .black) := by
        cases d <;> simp_all [Dir.pick, Tree.color]
      simp only [delBlack, ptr_node, both, someRed, decide_false, Bool.false_eq_true, if_false, ok_bind,
        w1, w2]
    · obtain ⟨t1, w1, h1, fresh1⟩ := delCase4_spec f
      refine ⟨t1, ?_, h1, fresh1⟩
      have someRed : ¬ (wl.color = .black ∧ wr.color = .black) := by
        cases d <;> simp_all [Dir.pick]
      simp only [delBlack, ptr_node, both, someRed, decide_false, Bool.false_eq_true, if_false, ok_bind,
        delCase3_far f far, w1]

end

/-- Below a path that is not empty stands another node than the root. -/
theorem ptr_fill_cons (f : Frame Nat (Entry V)) (path : NodePath V) (x : NodeTree V) :
    ∃ a ∈ pathIds (f :: path), ptr (Path.fill (f :: path) x) = .at a := by
  induction path generalizing f x with
  | nil => exact ⟨f.id, List.mem_cons_self, ptr_plug f x⟩
  | cons g path ih =>
    obtain ⟨a, member, same⟩ := ih g (f.plug x)
    exact ⟨a, List.mem_cons_of_mem _ (List.mem_append_right _ member), same⟩

theorem Holds.not_root {f : Frame Nat (Entry V)} {path : NodePath V} {x : NodeTree V}
    (h : Holds t (Path.fill (f :: path) x)) : ptr x ≠ t.root := by
  obtain ⟨a, member, same⟩ := ptr_fill_cons f path x
  rw [h.root, same]
  intro equal
  cases x with
  | nil =>
    rw [ptr_nil, Ptr.at.injEq] at equal
    exact h.apart (equal ▸ mem_ids_fill.mpr (.inr member))
  | node c l i e r =>
    rw [ptr_node, Ptr.at.injEq] at equal
    exact (nodup_ids_fill.mp h.distinct).2.2 i (by simp) (equal ▸ member)

theorem delFixupLoop_root {tree : NodeTree V} (h : Holds t tree) (fuel : Nat) :
    delFixupLoop (fuel + 1) t (ptr tree) = .ok (t, ptr tree) :=
  if_pos h.root.symm

theorem delFixupLoop_red {path : NodePath V} {x : NodeTree V} (h : Holds t (Path.fill path x))
    (red : x.color = .red) (fuel : Nat) : delFixupLoop (fuel + 1) t (ptr x) = .ok (t, ptr x) := by
  obtain ⟨n, read, col⟩ := h.col_at
  have notBlack : n.col ≠ .black := by
    rw [col, red]
    decide
  simp only [delFixupLoop, read, ok_bind, if_neg notBlack, pure_ok, ite_self]

/-- At a black node the loop takes the side of the parent on which the node is, and the left side
where both children are missing. -/
theorem delFixupLoop_step {f : Frame Nat (Entry V)} {path : NodePath V} {x : NodeTree V}
    (foc : Focus t (f :: path) x) (black : x.color = .black)
    (onSide : x ≠ .nil ∨ f.sib ≠ .nil ∨ f.dir = .left) (fuel : Nat) : delFixupLoop (fuel + 1) t (ptr x) = (do
      let r ← t.delCase1 f.dir (ptr x) (ptr f.sib)
      let r ← r.1.delBlack f.dir (ptr x) r.2
      delFixupLoop fuel r.1 r.2) := by
  obtain ⟨n, read, parent, col⟩ := foc.placed
  have onNode : n.parent = .at f.id := parent
  have here : Holds t (Path.fill path (.join f.dir f.color x f.id f.val f.sib)) := foc.holds
  have side : (if ptr x = (cell f.dir (ptr x) (ptr f.sib) (above path) f.color f.val).left then Dir.left
      else .right) = f.dir := by
    rcases onSide with some_ | some_ | left
    · exact here.side (.inl some_)
    · exact here.side (.inr some_)
    · simp [left, cell, Dir.pick]
  simp only [delFixupLoop, if_neg foc.holds.not_root, read, ok_bind, col, black, if_true, onNode,
    foc.read_parent, side, delFixupSide_eq, child_other_cell, bind_assoc]

/-- How a deletion ends on the heap. -/
def Deletes (t : Rbtree V) (r : Except Fault (Rbtree V)) : Option (NodeTree V × Bool) → Prop
  | none => r = .error .nullPointer
  | some (tree, _) => ∃ t', r = .ok t' ∧ Holds t' tree ∧ t'.fresh = t.fresh

/-- The loop of `rbtree_del_fixup` and its last line. -/
def fixupFrom (fuel : Nat) (t : Rbtree V) (x : Ptr) : Except Fault (Rbtree V) := do
  let (t, x) ← delFixupLoop fuel t x
  t.setCol x .black

theorem delFixup_eq (t : Rbtree V) (x : Ptr) : t.delFixup x = fixupFrom t.fresh t x := rfl

theorem fixupFrom_stop {path : NodePath V} {x : NodeTree V} {fuel : Nat} {slip : Bool}
    (h : Holds t (Path.fill path x)) (stops : delFixupLoop fuel t (ptr x) = .ok (t, ptr x)) :
    Deletes t (fixupFrom fuel t (ptr x)) (some (Path.fill path (x.paint .black), slip)) := by
  obtain ⟨t', run, holds, keeps⟩ := h.setCol_black
  refine ⟨t', ?_, holds, keeps.fresh⟩
  rw [fixupFrom, stops]
  exact run

theorem Deletes.congr {t₁ t₂ : Rbtree V} {r : Except Fault (Rbtree V)}
    {o : Option (NodeTree V × Bool)} (h : Deletes t₂ r o) (fresh : t₂.fresh = t₁.fresh) :
    Deletes t₁ r o := by
  cases o with
  | none => exact h
  | some o =>
    obtain ⟨t', run, holds, same⟩ := h
    exact ⟨t', run, holds, same.trans fresh⟩

section
variable {d : Dir} {c : Color} {i : Nat} {e : Entry V} {path : NodePath V} {x : NodeTree V}

/-- Without a sibling the source reads below the sentinel. -/
theorem delFixupLoop_none (foc : Focus t (⟨d, c, i, e, .nil⟩ :: path) x) (black : x.color = .black)
    (fuel : Nat) : delFixupLoop (fuel + 1) t (ptr x) = .error .nullPointer := by
  -- a place whose sibling is missing too counts as the left one
  obtain ⟨d, foc, onSide⟩ : ∃ d, Focus t (⟨d, c, i, e, .nil⟩ :: path) x ∧
      (x ≠ .nil ∨ (RedBlack.Tree.nil : NodeTree V) ≠ .nil ∨ d = .left) := by
    cases x with
    | nil => exact ⟨.left, ⟨by cases d <;> exact foc.holds, foc.placed⟩, .inr (.inr rfl)⟩
    | node => exact ⟨d, foc, .inl nofun⟩
  have first := delCase1_black foc rfl
  have null := bothBlack_nil foc.holds
  rw [delFixupLoop_step foc black onSide, first]
  simp only [ok_bind, delBlack, ptr_nil, null, error_bind]

/-- Where the loop stands after the cases for a black sibling. -/
def Goes (t : Rbtree V) (path : NodePath V) (fuel : Nat) (r : Except Fault (Rbtree V)) :
    Option (Outcome Nat (Entry V)) → Prop
  | none => r = .error .nullPointer
  | some (.up u) => ∃ t', r = fixupFrom fuel t' (ptr u) ∧ Holds t' (Path.fill path u) ∧
      t'.fresh = t.fresh
  | some (.done u) => ∃ t', r = fixupFrom fuel t' t'.root ∧ Holds t' (Path.fill path u) ∧
      t'.fresh = t.fresh

theorem Ends.goes {t₁ : Rbtree V} {r : Except Fault (Rbtree V × Ptr)} {fuel : Nat}
    {o : Option (Outcome Nat (Entry V))} (ends : Ends t₁ path r o)
    (step : delFixupLoop (fuel + 1) t (ptr x) = r >>= fun r => delFixupLoop fuel r.1 r.2) :
    Goes t₁ path fuel (fixupFrom (fuel + 1) t (ptr x)) o := by
  rw [fixupFrom, step]
  match o, ends with
  | none, stops => exact bind_error (bind_error stops)
  | some (.up u), ⟨t₂, run, rest⟩ =>
    refine ⟨t₂, ?_, rest⟩
    rw [run]
    rfl
  | some (.done u), ⟨t₂, run, rest⟩ =>
    refine ⟨t₂, ?_, rest⟩
    rw [run]
    rfl

end

theorem fixupFrom_root {tree : NodeTree V} (h : Holds t tree) {fuel : Nat} {slip : Bool} :
    Deletes t (fixupFrom (fuel + 1) t t.root) (some (tree.paint .black, slip)) := by
  have whole : Holds t (Path.fill [] tree) := h
  rw [h.root]
  exact fixupFrom_stop whole (delFixupLoop_root h fuel)

/-- The repair on the heap is the repair on trees. -/
theorem fixupFrom_spec (path : NodePath V) {x : NodeTree V} {t : Rbtree V} {fuel : Nat}
    (foc : Focus t path x) (enough : path.length < fuel) :
    Deletes t (fixupFrom fuel t (ptr x)) (RedBlack.deleteFixup x path) := by
  induction path generalizing x t fuel with
  | nil =>
    obtain ⟨fuel, rfl⟩ : ∃ f, fuel = f + 1 := ⟨fuel - 1, by omega⟩
    exact fixupFrom_stop foc.holds (delFixupLoop_root foc.holds fuel)
  | cons f path ih =>
    rw [List.length_cons] at enough
    obtain ⟨fuel, rfl⟩ : ∃ f, fuel = f + 2 := ⟨fuel - 2, by omega⟩
    by_cases red : x.color = .red
    · rw [deleteFixup, if_pos red]
      exact fixupFrom_stop foc.holds (delFixupLoop_red foc.holds red _)
    have black := Color.black_of_ne_red red
    rw [deleteFixup, if_neg red]
    obtain ⟨d, c, i, e, sib⟩ := f
    cases sib with
    | nil => exact bind_error (delFixupLoop_none foc black _)
    | node wc wl wi we wr =>
      have step := delFixupLoop_step foc black (.inr (.inl Tree.node_ne_nil)) (fuel + 1)
      cases wc with
      | red =>
        obtain ⟨t1, w1, f1, fresh1⟩ := delCase1_red foc
        rw [ptr_node, w1, ok_bind] at step
        have next := (delBlack_spec f1).goes step
        cases fixed : fixAt d x .red i e (d.pick wl wr) with
        | none =>
          rw [fixed] at next
          simp only [fixed]
          exact next
        | some o =>
          rw [fixed] at next
          simp only [fixed]
          cases o with
          | up u =>
            obtain ⟨t2, same, h2, fresh2⟩ := next
            obtain ⟨w, rfl⟩ := fixAt_up fixed
            rw [same]
            refine (fixupFrom_stop h2 ?_).congr (fresh2.trans fresh1)
            exact delFixupLoop_red h2 (Tree.color_join ..) _
          | done u =>
            obtain ⟨t2, same, h2, fresh2⟩ := next
            rw [same]
            exact (fixupFrom_root h2).congr (fresh2.trans fresh1)
      | black =>
        rw [delCase1_black foc rfl, ok_bind] at step
        have next := (delBlack_spec foc).goes step
        cases fixed : fixAt d x c i e (.node .black wl wi we wr) with
        | none =>
          rw [fixed] at next
          simp only [fixed]
          exact next
        | some o =>
          rw [fixed] at next
          simp only [fixed]
          cases o with
          | up u =>
            obtain ⟨t2, same, h2, fresh2⟩ := next
            have some_ : u ≠ .nil := by
              obtain ⟨w, rfl⟩ := fixAt_up fixed
              exact Tree.join_ne_nil
            rw [same]
            exact (ih (h2.focus some_) (by omega)).congr fresh2
          | done u =>
            obtain ⟨t2, same, h2, fresh2⟩ := next
            rw [same]
            exact (fixupFrom_root h2).congr fresh2

section
variable {path : NodePath V} {c : Color} {l r x : NodeTree V} {i : Nat} {e : Entry V}

/-- The child of the node that goes gets the parent of that node, also when it is the sentinel. -/
theorem setParent_spec {q : Ptr} (cells : Cells t.heap x q) (apart : 0 ∉ x.ids)
    (distinct : x.ids.Nodup) (nil : t.nil = .at 0)
    (sentinel : ∃ n, t.heap 0 = some n ∧ n.left = .null ∧ n.right = .null ∧ n.col = .black) (p : Ptr) :
    ∃ t', t.setParent (ptr x) p = .ok t' ∧ Cells t'.heap x p ∧ Keeps (0 :: x.ids) t t' ∧
      t'.root = t.root ∧
      (∃ n, t'.heap 0 = some n ∧ n.left = .null ∧ n.right = .null ∧ n.col = .black) ∧
      ∃ n, t'.get (ptr x) = .ok n ∧ n.parent = p ∧ n.col = x.color := by
  cases x with
  | nil =>
    obtain ⟨n, here, left, right, col⟩ := sentinel
    have new : (t.put 0 (some { n with parent := p })).heap 0 = some { n with parent := p } := by
      rw [put_heap, Function.update_self]
    exact ⟨_, modify_at here _, trivial, put_keeps .., rfl, ⟨_, new, left, right, col⟩, _, get_at new,
      rfl, col⟩
  | node c l i e r =>
    obtain ⟨t', run, cells', keeps, root⟩ := adopt_spec nil cells apart distinct p
    have notNil : ptr (.node c l i e r) ≠ t.nil := by
      rw [nil]
      intro same
      cases same
      simp at apart
    rw [adopt, if_neg notNil] at run
    refine ⟨t', run, cells', keeps.mono fun a member => List.mem_cons_of_mem _ member, root, ?_, _,
      get_at cells'.1, rfl, rfl⟩
    rw [keeps.heap 0 apart]
    exact sentinel

theorem Holds.free {tree : NodeTree V} (h : Holds t tree) (outside : i ∉ tree.ids) (some_ : i ≠ 0) :
    Holds (t.free (.at i)) tree where
  nil := h.nil
  root := h.root
  cells := by
    refine cells_congr (fun a member => ?_) h.cells
    have other : a ≠ i := fun same => outside (same ▸ member)
    exact Function.update_of_ne other ..
  sentinel := by
    have same : (t.free (.at i)).heap 0 = t.heap 0 := Function.update_of_ne some_.symm ..
    rw [same]
    exact h.sentinel
  apart := h.apart
  distinct := h.distinct
  allocated := h.allocated
  start := h.start

/-- `rbtree_delete` from the line on at which the node that goes is known. -/
def unlink (t : Rbtree V) (y : Ptr) : Except Fault (Rbtree V) := do
  let n ← t.get y
  let x := if n.left = t.nil then n.right else n.left
  let t ← t.setParent x n.parent
  let t ← t.replace n.parent y x
  if (← t.get y).col = .black then
    let t ← t.delFixup x
    return t.free y
  else return t.free y

theorem delete_eq (t : Rbtree V) (z : Ptr) : t.delete z = (do
    let (t, y) ← t.delTarget z
    t.unlink y) := rfl

/-- A node with at most one child gives its place to that child. -/
theorem Holds.bypass (h : Holds t (Path.fill path (.node c l i e r)))
    (one : l = .nil ∧ x = r ∨ r = .nil ∧ x = l) :
    ∃ t1 t2, t.setParent (ptr x) (above path) = .ok t1 ∧
      t1.replace (above path) (.at i) (ptr x) = .ok t2 ∧ Focus t2 path x ∧ t2.fresh = t.fresh ∧
      t2.heap i = t.heap i := by
  obtain ⟨pathCells, _, left, right⟩ := cells_fill.mp h.cells
  obtain ⟨inside, pathDistinct, disjoint⟩ := nodup_ids_fill.mp h.distinct
  have apart := h.apart
  simp only [Tree.ids_node, List.nodup_append, List.nodup_cons] at inside
  simp only [mem_ids_fill, Tree.ids_node, List.mem_append, List.mem_cons, not_or] at apart disjoint
  obtain ⟨⟨l0, i0, r0⟩, p0⟩ := apart
  have child : Cells t.heap x (.at i) ∧ 0 ∉ x.ids ∧ x.ids.Nodup ∧ i ∉ x.ids ∧
      ∀ a ∈ x.ids, a ∉ pathIds path := by
    rcases one with ⟨_, rfl⟩ | ⟨_, rfl⟩
    · exact ⟨right, r0, inside.2.1.2, inside.2.1.1, fun a m => disjoint a (.inr (.inr m))⟩
    · exact ⟨left, l0, inside.1, fun m => inside.2.2 i m i (by simp) rfl,
        fun a m => disjoint a (.inl m)⟩
  obtain ⟨cells, x0, distinct, ix, xp⟩ := child
  have ip : i ∉ pathIds path := disjoint i (.inr (.inl rfl))
  obtain ⟨t1, w1, cells1, k1, root1, sentinel1, placed1⟩ :=
    setParent_spec cells x0 distinct h.nil h.sentinel (above path)
  have path1 : PathCells t1.heap path (.at i) := by
    refine pathCells_congr (fun a member => k1.heap a ?_) pathCells
    rw [List.mem_cons, not_or]
    exact ⟨fun same => p0 (same ▸ member), fun inner => xp a inner member⟩
  obtain ⟨t2, w2, path2, k2, root2⟩ :=
    replace_spec (k1.nil.trans h.nil) path1 pathDistinct p0 ip (Ne.symm i0) (ptr x)
  have fresh : t2.fresh = t.fresh := k2.fresh.trans k1.fresh
  have holds : Holds t2 (Path.fill path x) := by
    constructor
    · exact k2.nil.trans (k1.nil.trans h.nil)
    · rw [root2]
      split
      · rename_i top
        rw [top, Path.fill_nil]
      · rename_i below
        obtain ⟨f, path, rfl⟩ := List.exists_cons_of_ne_nil below
        rw [root1, h.root, Path.fill_cons, Path.fill_cons]
        exact ptr_fill path (by simp)
    · exact cells_fill.mpr ⟨path2, cells_congr (fun a member => k2.heap a (xp a member)) cells1⟩
    · rw [k2.heap 0 p0]
      exact sentinel1
    · rw [mem_ids_fill, not_or]
      exact ⟨x0, p0⟩
    · exact nodup_ids_fill.mpr ⟨distinct, pathDistinct, xp⟩
    · intro a member
      rw [fresh]
      apply h.allocated a
      rw [mem_ids_fill, Tree.ids_node, List.mem_append, List.mem_cons]
      rcases mem_ids_fill.mp member with inner | outer
      · rcases one with ⟨_, rfl⟩ | ⟨_, rfl⟩
        · exact .inl (.inr (.inr inner))
        · exact .inl (.inl inner)
      · exact .inr outer
    · rw [fresh]
      exact h.start
  have foc : Focus t2 path x := by
    cases x with
    | nil =>
      obtain ⟨n, read, rest⟩ := placed1
      refine ⟨holds, n, ?_, rest⟩
      simpa only [get, ptr_nil, k2.heap 0 p0] using read
    | node => exact holds.focus Tree.node_ne_nil
  refine ⟨t1, t2, w1, w2, foc, fresh, (k2.heap i ip).trans (k1.heap i ?_)⟩
  rw [List.mem_cons, not_or]
  exact ⟨Ne.symm i0, ix⟩

theorem unlink_spec (h : Holds t (Path.fill path (.node c l i e r)))
    (one : l = .nil ∧ x = r ∨ r = .nil ∧ x = l) : Deletes t (t.unlink (.at i)) (splice c x path) := by
  obtain ⟨t1, t2, w1, w2, foc, fresh, here⟩ := h.bypass one
  have read := h.at_node
  have child : (if ptr l = t.nil then ptr r else ptr l) = ptr x := by
    rw [h.nil]
    rcases one with ⟨rfl, rfl⟩ | ⟨rfl, rfl⟩
    · exact if_pos rfl
    · split
      · rename_i none
        rw [none, ptr_nil]
      · rfl
  have inside : i ∈ (Path.fill path (.node c l i e r)).ids := mem_ids_fill.mpr (.inl (by simp))
  have some_ : i ≠ 0 := fun same => h.apart (same ▸ inside)
  -- the node is in no tree with the same list as the one that is left
  have gone : ∀ tree : NodeTree V, tree.toList = (Path.fill path x).toList → i ∉ tree.ids := by
    intro tree same member
    have left : i ∈ (Path.fill path x).ids := by
      rw [Tree.ids, ← same]
      exact member
    obtain ⟨inner, _, disjoint⟩ := nodup_ids_fill.mp h.distinct
    simp only [Tree.ids_node, List.nodup_append, List.nodup_cons] at inner
    rcases mem_ids_fill.mp left with below | above
    · rcases one with ⟨_, rfl⟩ | ⟨_, rfl⟩
      · exact inner.2.1.1 below
      · exact inner.2.2 i below i (by simp) rfl
    · exact disjoint i (by simp) above
  have run : t.unlink (.at i) = (if c = .black then t2.delFixup (ptr x) >>= fun t => .ok (t.free (.at i))
      else .ok (t2.free (.at i))) := by
    have again : t2.get (.at i) = .ok ⟨ptr l, ptr r, above path, c, e⟩ := get_at (here.trans read)
    simp only [unlink, get_at read, ok_bind, child, w1, w2, again, pure_ok]
  rw [run, splice]
  split
  · have fixed := fixupFrom_spec path foc foc.holds.path_lt
    rw [delFixup_eq]
    cases ends : deleteFixup x path with
    | none =>
      rw [ends] at fixed
      exact bind_error fixed
    | some o =>
      obtain ⟨tree, slip⟩ := o
      rw [ends] at fixed
      obtain ⟨t3, run, holds, fresh3⟩ := fixed
      refine ⟨t3.free (.at i), ?_, holds.free (gone _ (deleteFixup_toList path ends)) some_,
        fresh3.trans fresh⟩
      rw [run, ok_bind]
  · exact ⟨_, rfl, foc.holds.free (gone _ rfl) some_, fresh⟩

/-- The successor is the leftmost node of the right subtree. -/
theorem successorLoop_spec {path sub front : NodePath V} {yc : Color} {yi : Nat} {ye : Entry V}
    {yr : NodeTree V} {fuel : Nat} (h : Holds t (Path.fill path (.node c l i e r)))
    (found : leftmost c l i e r front = (yc, yi, ye, yr, sub)) (enough : l.ids.length < fuel) :
    t.successorLoop fuel (.at i) = .ok (.at yi) := by
  induction l generalizing c i e r path front fuel with
  | nil =>
    obtain ⟨fuel, rfl⟩ : ∃ f, fuel = f + 1 := ⟨fuel - 1, by omega⟩
    cases found
    simp only [successorLoop, get_at h.at_node, ok_bind, ptr_nil, h.nil, if_true, pure_ok]
  | node c' l' i' e' r' ih _ =>
    simp only [Tree.ids_node, List.length_append, List.length_cons] at enough
    obtain ⟨fuel, rfl⟩ : ∃ f, fuel = f + 1 := ⟨fuel - 1, by omega⟩
    have below : Holds t (Path.fill (⟨.left, c, i, e, r⟩ :: path) (.node c' l' i' e' r')) := h
    have notNil : Ptr.at i' ≠ t.nil := h.not_nil (mem_ids_fill.mpr (.inl (by simp)))
    simp only [successorLoop, get_at h.at_node, ok_bind, ptr_node, if_neg notNil]
    exact ih below found (by omega)

theorem delete_spec (h : Holds t (Path.fill path (.node c l i e r))) :
    Deletes t (t.delete (.at i)) (RedBlack.delete path c l i r) := by
  have read := get_at h.at_node
  cases l with
  | nil =>
    have target : t.delTarget (.at i) = .ok (t, .at i) := by
      simp only [delTarget, read, ok_bind, ptr_nil, h.nil, ne_eq, not_true, false_and, if_false, pure_ok]
    rw [delete_eq, target]
    cases r <;> exact unlink_spec h (.inl ⟨rfl, rfl⟩)
  | node lc ll li le lr =>
    cases r with
    | nil =>
      have target : t.delTarget (.at i) = .ok (t, .at i) := by
        simp only [delTarget, read, ok_bind, ptr_nil, h.nil, ne_eq, not_true, and_false, if_false,
          pure_ok]
      rw [delete_eq, target]
      exact unlink_spec h (.inr ⟨rfl, rfl⟩)
    | node rc rl ri re rr =>
      rcases found : leftmost rc rl ri re rr [] with ⟨yc, yi, ye, yr, sub⟩
      have below : Holds t (Path.fill (⟨.right, c, i, e, .node lc ll li le lr⟩ :: path)
          (.node rc rl ri re rr)) := h
      have leftSome : Ptr.at li ≠ t.nil := h.not_nil (mem_ids_fill.mpr (.inl (by simp)))
      have rightSome : Ptr.at ri ≠ t.nil := h.not_nil (mem_ids_fill.mpr (.inl (by simp)))
      have enough : rl.ids.length < t.fresh := by
        have fits := h.length_lt
        have whole := (ids_fill path (.node c (.node lc ll li le lr) i e (.node rc rl ri re rr))).length_eq
        simp only [Tree.ids_node, List.length_append, List.length_cons] at whole
        omega
      have next := successorLoop_spec below found enough
      have seen (e : Entry V) : Path.fill (sub ++ ⟨.right, c, i, e, .node lc ll li le lr⟩ :: path)
          (.node yc .nil yi ye yr) = Path.fill path (.node c (.node lc ll li le lr) i e
            (.node rc rl ri re rr)) := by
        rw [fill_append, leftmost_fill _ _ _ _ _ _ found]
        rfl
      have there := h
      rw [← seen] at there
      obtain ⟨t1, w1, h1, k1⟩ := h.setEntry_node ye
      have target : t.delTarget (.at i) = .ok (t1, .at yi) := by
        simp only [delTarget, read, ok_bind, ptr_node, ne_eq, leftSome, rightSome, not_false_eq_true,
          and_self, if_true, next, get_at there.at_node, w1, pure_ok]
      rw [← seen] at h1
      simp only [RedBlack.delete, found]
      rw [delete_eq, target]
      exact (unlink_spec h1 (.inl ⟨rfl, rfl⟩)).congr k1.fresh

end

end Yamq.Rbtree
