import Yamq.Base.RbTreeCells

/-! Rotations, and the two writes to the surroundings of a node that they share with deletion. -/
namespace Yamq.Rbtree

open RedBlack

variable {V : Type} {t : Rbtree V}

/-- The root of a subtree gets a new parent. -/
theorem adopt_spec {x : NodeTree V} {q : Ptr} (nil : t.nil = .at 0) (cells : Cells t.heap x q)
    (apart : 0 ∉ x.ids) (distinct : x.ids.Nodup) (p : Ptr) :
    ∃ t', t.adopt (ptr x) p = .ok t' ∧ Cells t'.heap x p ∧ Keeps x.ids t t' ∧ t'.root = t.root := by
  cases x with
  | nil => exact ⟨t, if_pos nil.symm, trivial, .refl .., rfl⟩
  | node c l i e r =>
    obtain ⟨here, left, right⟩ := cells
    have notNil : ptr (.node c l i e r) ≠ t.nil := by
      rw [nil]
      intro same
      cases same
      simp at apart
    have apartLeft : ∀ a ∈ l.ids, a ≠ i := by
      intro a member same
      simp only [Tree.ids_node, List.nodup_append] at distinct
      exact distinct.2.2 a member i (by simp) same
    have apartRight : ∀ a ∈ r.ids, a ≠ i := by
      intro a member same
      simp only [Tree.ids_node, List.nodup_append, List.nodup_cons] at distinct
      exact distinct.2.1.1 (same ▸ member)
    refine ⟨_, (if_neg notNil).trans (modify_at here _), ⟨?_, ?_, ?_⟩, ?_, rfl⟩
    · rw [put_heap, Function.update_self]
    · refine cells_congr (fun a member => ?_) left
      rw [put_heap, Function.update_of_ne (apartLeft a member)]
    · refine cells_congr (fun a member => ?_) right
      rw [put_heap, Function.update_of_ne (apartRight a member)]
    · exact (put_keeps ..).mono (by simp)

/-- The node above a place points to another child. -/
theorem setChild_above {f : Frame Nat (Entry V)} {path : NodePath V} {old : Ptr}
    (cells : PathCells t.heap (f :: path) old) (distinct : (pathIds (f :: path)).Nodup) (new : Ptr) :
    ∃ t', t.setChild f.dir (.at f.id) new = .ok t' ∧ PathCells t'.heap (f :: path) new ∧
      Keeps [f.id] t t' ∧ t'.root = t.root := by
  obtain ⟨here, sib, rest⟩ := cells
  simp only [pathIds, List.nodup_cons, List.mem_append, not_or] at distinct
  refine ⟨_, modify_at here _, ⟨?_, ?_, ?_⟩, put_keeps .., rfl⟩
  · rw [put_heap, Function.update_self, setChild_cell]
  · refine cells_congr (fun a member => ?_) sib
    rw [put_heap, Function.update_of_ne]
    exact fun same => distinct.1.1 (same ▸ member)
  · refine pathCells_congr (fun a member => ?_) rest
    rw [put_heap, Function.update_of_ne]
    exact fun same => distinct.1.2 (same ▸ member)

/-- Another node takes the place of `i` below the path. -/
theorem replace_spec {path : NodePath V} {i : Nat} (nil : t.nil = .at 0)
    (cells : PathCells t.heap path (.at i)) (distinct : (pathIds path).Nodup)
    (apart : 0 ∉ pathIds path) (outside : i ∉ pathIds path) (some_ : i ≠ 0) (new : Ptr) :
    ∃ t', t.replace (above path) (.at i) new = .ok t' ∧ PathCells t'.heap path new ∧
      Keeps (pathIds path) t t' ∧ t'.root = if path = [] then new else t.root := by
  cases path with
  | nil => exact ⟨_, if_pos nil.symm, trivial, ⟨rfl, rfl, fun _ _ => rfl⟩, rfl⟩
  | cons f path =>
    have notNil : above (f :: path) ≠ t.nil := by
      rw [nil]
      intro same
      rw [above, Ptr.at.injEq] at same
      simp [pathIds, same] at apart
    obtain ⟨t', run, below, keeps, root⟩ := setChild_above cells distinct new
    have whole : Keeps (pathIds (f :: path)) t t' := keeps.mono (by simp [pathIds])
    obtain ⟨here, sib, rest⟩ := cells
    have read : t.get (above (f :: path)) = .ok _ := get_at here
    simp only [replace, if_neg notNil, read, ok_bind, reduceCtorEq, if_false]
    cases side : f.dir with
    | left =>
      rw [if_pos (by simp [cell, Dir.pick])]
      exact ⟨t', side ▸ run, below, whole, root⟩
    | right =>
      have sibling : Ptr.at i ≠ ptr f.sib := by
        intro same
        cases h : f.sib with
        | nil =>
          rw [h] at same
          cases same
          exact some_ rfl
        | node c l j e r =>
          rw [h] at same
          cases same
          exact outside (by simp [pathIds, h])
      rw [if_neg (by simpa [cell, Dir.pick] using sibling)]
      exact ⟨t', side ▸ run, below, whole, root⟩

section
variable {path : NodePath V} {d : Dir} {c c' : Color} {x y z : NodeTree V} {i j : Nat}
  {e e' : Entry V}

/-- The child of `i` away from side `d` rises above it. -/
theorem Holds.rotate
    (h : Holds t (Path.fill path (.join d c x i e (.join d c' y j e' z)))) :
    ∃ t', t.rotate d (.at i) = .ok t' ∧
      Holds t' (Path.fill path (.join d c' (.join d c x i e y) j e' z)) ∧
      Keeps (Path.fill path (.join d c x i e (.join d c' y j e' z))).ids t t' := by
  obtain ⟨pathCells, inside⟩ := cells_fill.mp h.cells
  obtain ⟨hi, hx, inside⟩ := cells_join.mp inside
  obtain ⟨hj, hy, hz⟩ := cells_join.mp inside
  obtain ⟨distinct, pathDistinct, disjoint⟩ := nodup_ids_fill.mp h.distinct
  simp only [nodup_ids_join, mem_ids_join, not_or] at distinct
  obtain ⟨nx, ⟨ny, nz, jy, jz, yz⟩, ix, ⟨ij, iy, iz⟩, xr⟩ := distinct
  simp only [mem_ids_join] at disjoint
  have apart := h.apart
  simp only [mem_ids_fill, mem_ids_join, not_or] at apart
  obtain ⟨⟨i0, x0, j0, y0, z0⟩, p0⟩ := apart
  have ip := disjoint i (.inl rfl)
  have jp := disjoint j (.inr (.inr (.inl rfl)))
  have yp : ∀ a ∈ y.ids, a ∉ pathIds path := fun a m => disjoint a (.inr (.inr (.inr (.inl m))))
  rw [ptr_join] at pathCells hi
  -- x->right = y->left
  let t1 := t.put i (some (cell d (ptr x) (ptr y) (above path) c e))
  have w1 : t.setChild d.other (.at i) (ptr y) = .ok t1 := by
    rw [setChild, modify_at hi, setChild_other_cell]
  have k1 : Agree [i] t.heap t1.heap := put_agree t i _
  have hi1 : t1.heap i = some (cell d (ptr x) (ptr y) (above path) c e) := Function.update_self ..
  have hy1 : Cells t1.heap y (.at j) := by
    refine cells_congr (fun a member => k1.one ?_) hy
    exact fun same => iy (same ▸ member)
  -- y->left->parent = x
  obtain ⟨t2, w2, hy2, k2, r2⟩ := adopt_spec (t := t1) h.nil hy1 y0 ny (.at i)
  have hi2 : t2.heap i = some (cell d (ptr x) (ptr y) (above path) c e) := (k2.heap i iy).trans hi1
  have hj2 : t2.heap j = some (cell d (ptr y) (ptr z) (.at i) c' e') :=
    (k2.heap j jy).trans ((k1.one (Ne.symm ij)).trans hj)
  -- y->parent = x->parent
  let t3 := t2.put j (some (cell d (ptr y) (ptr z) (above path) c' e'))
  have w3 : t2.setParent (.at j) (above path) = .ok t3 := modify_at hj2 _
  have k3 : Agree [j] t2.heap t3.heap := put_agree t2 j _
  have path3 : PathCells t3.heap path (.at i) := by
    refine pathCells_congr (fun a member => ?_) pathCells
    have ai : a ≠ i := fun same => ip (same ▸ member)
    have aj : a ≠ j := fun same => jp (same ▸ member)
    exact (k3.one aj).trans ((k2.heap a fun m => yp a m member).trans (k1.one ai))
  -- y takes the place of x
  obtain ⟨t4, w4, path4, k4, r4⟩ := replace_spec (t := t3) (k2.nil.trans h.nil) path3 pathDistinct p0
    ip (Ne.symm i0) (.at j)
  have hi4 : t4.heap i = some (cell d (ptr x) (ptr y) (above path) c e) :=
    (k4.heap i ip).trans ((k3.one ij).trans hi2)
  have hj4 : t4.heap j = some (cell d (ptr y) (ptr z) (above path) c' e') :=
    (k4.heap j jp).trans (Function.update_self ..)
  -- x->parent = y and y->left = x
  let t5 := t4.put i (some (cell d (ptr x) (ptr y) (.at j) c e))
  have w5 : t4.setParent (.at i) (.at j) = .ok t5 := modify_at hi4 _
  have k5 : Agree [i] t4.heap t5.heap := put_agree t4 i _
  have hj5 : t5.heap j = some (cell d (ptr y) (ptr z) (above path) c' e') :=
    (k5.one (Ne.symm ij)).trans hj4
  let t6 := t5.put j (some (cell d (.at i) (ptr z) (above path) c' e'))
  have w6 : t5.setChild d (.at j) (.at i) = .ok t6 := by
    rw [setChild, modify_at hj5, setChild_cell]
  have k6 : Agree [j] t5.heap t6.heap := put_agree t5 j _
  have late : ∀ a, a ≠ i → a ≠ j → t6.heap a = t4.heap a := fun a ai aj =>
    (k6.one aj).trans (k5.one ai)
  have early : ∀ a, a ≠ j → a ∉ pathIds path → t4.heap a = t2.heap a := fun a aj ap =>
    (k4.heap a ap).trans (k3.one aj)
  have whole : ∀ a, a ≠ i → a ≠ j → a ∉ y.ids → a ∉ pathIds path → t6.heap a = t.heap a :=
    fun a ai aj ay ap => (late a ai aj).trans ((early a aj ap).trans
      ((k2.heap a ay).trans (k1.one ai)))
  have keeps : Keeps (Path.fill path (.join d c x i e (.join d c' y j e' z))).ids t t6 := by
    refine ⟨k4.nil.trans k2.nil, k4.fresh.trans k2.fresh, fun a outside => ?_⟩
    simp only [mem_ids_fill, mem_ids_join, not_or] at outside
    obtain ⟨⟨ai, _, aj, ay, _⟩, ap⟩ := outside
    exact whole a ai aj ay ap
  refine ⟨t6, ?_, h.update keeps ?_ ?_ ?_, keeps⟩
  · have notNil : Ptr.at j ≠ t.nil := by
      rw [h.nil]
      exact fun same => j0 (Ptr.at.inj same).symm
    simp only [Rbtree.rotate, get_at hi, ok_bind, child_other_cell, if_neg notNil,
      get_at hj, child_cell, w1, w2, get_at hi2, cell_parent, w3, w4, w5, w6]
  · refine (ids_fill ..).trans (List.Perm.trans (List.Perm.append_right _ ?_) (ids_fill ..).symm)
    cases d <;> simp [Tree.join]
  · change t4.root = _
    rw [r4]
    split
    · rename_i top
      rw [top, Path.fill_nil, ptr_join]
    · rename_i below
      obtain ⟨f, path, rfl⟩ := List.exists_cons_of_ne_nil below
      change t2.root = _
      rw [r2]
      refine h.root.trans ?_
      simp only [Path.fill_cons]
      exact ptr_fill path (by simp)
  · rw [cells_fill, cells_join, cells_join, ptr_join, ptr_join]
    refine ⟨?_, ?_, ⟨?_, ?_, ?_⟩, ?_⟩
    · refine pathCells_congr (fun a member => late a ?_ ?_) path4
      · exact fun same => ip (same ▸ member)
      · exact fun same => jp (same ▸ member)
    · exact Function.update_self ..
    · exact (k6.one ij).trans (Function.update_self ..)
    · refine cells_congr (fun a member => ?_) hx
      have out := xr a member
      exact whole a (fun same => ix (same ▸ member)) out.1 out.2.1
        (disjoint a (.inr (.inl member)))
    · refine cells_congr (fun a member => ?_) hy2
      exact (late a (fun same => iy (same ▸ member)) fun same => jy (same ▸ member)).trans
        (early a (fun same => jy (same ▸ member)) (yp a member))
    · refine cells_congr (fun a member => ?_) hz
      exact whole a (fun same => iz (same ▸ member)) (fun same => jz (same ▸ member))
        (fun m => yz a m member) (disjoint a (.inr (.inr (.inr (.inr member)))))

end

end Yamq.Rbtree
