import Yamq.Base.RbTreeRotate
import Yamq.Lib.RedBlack.Insert
import Mathlib.Data.Int.Order.Basic

/-! `rbtree_insert` on the heap does what the insertion on trees does. -/
namespace Yamq.Rbtree

open RedBlack

variable {V : Type} {t : Rbtree V}

theorem Holds.not_nil {tree : NodeTree V} (h : Holds t tree) {a : Nat} (member : a ∈ tree.ids) :
    Ptr.at a ≠ t.nil := by
  rw [h.nil]
  intro same
  rw [Ptr.at.injEq] at same
  exact h.apart (same ▸ member)

/-- The loop ends under a black node and at the root. -/
theorem insertFixupLoop_end {path : NodePath V} {n : NodeTree V} (h : Holds t (Path.fill path n))
    (some_ : n ≠ .nil) (black : path = [] ∨ Path.above path = some .black) (fuel : Nat) :
    insertFixupLoop (fuel + 1) t (ptr n) = .ok t := by
  cases n with
  | nil => exact absurd rfl some_
  | node c l i e r =>
    have parent : ∃ m, t.get (above path) = .ok m ∧ m.col = .black := by
      cases path with
      | nil =>
        obtain ⟨m, here, _, _, col⟩ := h.sentinel
        exact ⟨m, get_at here, col⟩
      | cons f path =>
        have color : f.color = .black := by
          rcases black with none | black
          · cases none
          · exact Option.some.inj black
        exact ⟨_, get_at (Holds.at_join h), color⟩
    obtain ⟨m, read, col⟩ := parent
    have notRed : m.col ≠ .red := by
      rw [col]
      decide
    simp only [insertFixupLoop, ptr_node, get_at h.at_node, ok_bind, read, if_neg notRed, pure_ok]

section
variable {path : NodePath V} {d : Dir} {cg : Color} {ig ip : Nat} {eg ep : Entry V}
  {sg sp n : NodeTree V}

/-- The turn to the outer case. Afterwards the red pair lies on one line under the grandparent. -/
theorem insertTurn_spec {p : Frame Nat (Entry V)}
    (h : Holds t (Path.fill (p :: ⟨d, cg, ig, eg, sg⟩ :: path) n)) (red : p.color = .red)
    (redn : n.color = .red) :
    ∃ (t' : Rbtree V) (q : Frame Nat (Entry V)) (m : NodeTree V),
      t.insertTurn d (ptr n) = .ok (t', ptr m) ∧
      Holds t' (Path.fill (q :: ⟨d, cg, ig, eg, sg⟩ :: path) m) ∧ q.dir = d ∧ m ≠ .nil ∧
      (turn ⟨d, cg, ig, eg, sg⟩ p n) =
        .join d .black m q.id q.val (.join d .red q.sib ig eg sg) ∧
      Keeps (Path.fill (p :: ⟨d, cg, ig, eg, sg⟩ :: path) n).ids t t' := by
  cases n with
  | nil => cases redn
  | node c l i e r =>
    cases redn
    have read := get_at h.at_node
    have parent := get_at (Holds.at_join h)
    by_cases same : p.dir = d
    · have other : Ptr.at i ≠ ptr p.sib := Holds.children_ne h (.inl Tree.node_ne_nil)
      refine ⟨t, p, _, ?_, h, same, Tree.node_ne_nil, turn_outer same _, .refl ..⟩
      simp only [insertTurn, ptr_node, read, ok_bind, above, parent, same, child_other_cell]
      rw [if_neg other, pure_ok]
    · have turned : p.dir = d.other := by
        cases h : p.dir <;> cases d <;> simp_all [Dir.other]
      have tree : Path.fill (p :: ⟨d, cg, ig, eg, sg⟩ :: path) (.node .red l i e r) =
          Path.fill (⟨d, cg, ig, eg, sg⟩ :: path) (.join d .red p.sib p.id p.val
            (.join d .red (d.pick l r) i e (d.pick r l))) := by
        rw [Tree.join_pick, ← fill_other, ← turned, ← red]
      have holds := h
      rw [tree] at holds
      obtain ⟨t', run, rotated, keeps⟩ := holds.rotate
      rw [← tree] at keeps
      refine ⟨t', ⟨d, .red, i, e, d.pick r l⟩, .join d .red p.sib p.id p.val (d.pick l r), ?_,
        rotated, rfl, Tree.join_ne_nil, turn_inner same .., keeps⟩
      simp only [insertTurn, ptr_node, read, ok_bind, above, parent, turned, child_cell, if_true,
        run, pure_ok, ptr_join]

/-- One turn of the loop under a black grandparent whose other child is red: the colours move up. -/
theorem insertFixupSide_up {p : Frame Nat (Entry V)}
    (h : Holds t (Path.fill (p :: ⟨d, cg, ig, eg, sg⟩ :: path) n)) (some_ : n ≠ .nil)
    (uncle : sg.color = .red) : ∃ t', t.insertFixupSide d (ptr n) = .ok (t', .at ig) ∧
      Holds t' (Path.fill path
        (.join d .red ((p.plug n).paint .black) ig eg (sg.paint .black))) ∧
      Keeps (Path.fill (p :: ⟨d, cg, ig, eg, sg⟩ :: path) n).ids t t' := by
  cases n with
  | nil => exact absurd rfl some_
  | node c l i e r =>
    cases sg with
    | nil => cases uncle
    | node cu lu u eu ru =>
      cases uncle
      have read := get_at h.at_node
      have parent := get_at (Holds.at_join h)
      have hg : Holds t (Path.fill path (.join d cg (p.plug (.node c l i e r)) ig eg
          (.node .red lu u eu ru))) := h
      have grand := get_at hg.at_join
      have hu := hg
      rw [← fill_other] at hu
      have red := get_at hu.at_node
      -- the three writes, each seen from the node that is painted
      have hp : Holds t (Path.fill (⟨d, cg, ig, eg, .node .red lu u eu ru⟩ :: path)
          (p.plug (.node c l i e r))) := h
      obtain ⟨t1, w1, h1, k1⟩ := hp.setCol_black
      have h1u : Holds t1 (Path.fill path (.join d cg ((p.plug (.node c l i e r)).paint .black) ig eg
          (.node .red lu u eu ru))) := h1
      rw [← fill_other] at h1u
      obtain ⟨t2, w2, h2, k2⟩ := h1u.setCol_node .black
      rw [fill_other] at h2
      have h2g : Holds t2 (Path.fill path (.node cg
          (d.pick ((p.plug (.node c l i e r)).paint .black) (.node .black lu u eu ru)) ig eg
          (d.pick (.node .black lu u eu ru) ((p.plug (.node c l i e r)).paint .black)))) := by
        cases d <;> exact h2
      obtain ⟨t3, w3, h3, k3⟩ := h2g.setCol_node .red
      refine ⟨t3, ?_, ?_, ?_⟩
      · rw [ptr_plug] at w1
        simp only [insertFixupSide, ptr_node, read, ok_bind, above, parent, cell_parent, grand,
          child_other_cell, red, if_true, w1, w2, w3, pure_ok]
      · cases d <;> exact h3
      · have inside : ∀ a, a ∈ (p.plug (.node c l i e r)).ids ∨ a = u ∨ a = ig →
            a ∈ (Path.fill (p :: ⟨d, cg, ig, eg, .node .red lu u eu ru⟩ :: path)
              (.node c l i e r)).ids := by
          intro a member
          rw [Path.fill_cons, Path.fill_cons, mem_ids_fill, Frame.plug, mem_ids_join]
          rcases member with inner | rfl | rfl
          · exact .inl (.inr (.inl inner))
          · exact .inl (.inr (.inr (by simp)))
          · exact .inl (.inl rfl)
        refine ((k1.mono fun a m => inside a (.inl m)).trans
          (k2.mono fun a m => inside a (.inr (.inl (List.mem_singleton.mp m))))).trans
          (k3.mono fun a m => inside a (.inr (.inr (List.mem_singleton.mp m))))

/-- The last turn of the loop, under a black grandparent whose other child is black. -/
theorem insertFixupSide_done {p : Frame Nat (Entry V)}
    (h : Holds t (Path.fill (p :: ⟨d, cg, ig, eg, sg⟩ :: path) n)) (red : p.color = .red)
    (redn : n.color = .red) (uncle : sg.color = .black) : ∃ (t' : Rbtree V) (q : Path Nat (Entry V))
      (m : NodeTree V), t.insertFixupSide d (ptr n) = .ok (t', ptr m) ∧ Holds t' (Path.fill q m) ∧
      m ≠ .nil ∧ Path.above q = some .black ∧
      Path.fill q m = Path.fill path (turn ⟨d, cg, ig, eg, sg⟩ p n) ∧
      Keeps (Path.fill (p :: ⟨d, cg, ig, eg, sg⟩ :: path) n).ids t t' := by
  have hg : Holds t (Path.fill path (.join d cg (p.plug n) ig eg sg)) := h
  have hu := hg
  rw [← fill_other] at hu
  obtain ⟨u, readu, colu⟩ := hu.col_at
  have notRed : u.col ≠ .red := by
    rw [colu, uncle]
    decide
  obtain ⟨t1, q, m, run1, h1, side, some_, turned, k1⟩ := insertTurn_spec h red redn
  obtain ⟨qd, qc, qi, qe, qs⟩ := q
  cases side
  -- the parent turns black
  have h1q : Holds t1 (Path.fill (⟨qd, cg, ig, eg, sg⟩ :: path) (.node qc (qd.pick m qs) qi qe
      (qd.pick qs m))) := by
    cases qd <;> exact h1
  obtain ⟨t2, w2, h2, k2⟩ := h1q.setCol_node .black
  have h2q : Holds t2 (Path.fill path (.node cg (qd.pick (.join qd .black m qi qe qs) sg) ig eg
      (qd.pick sg (.join qd .black m qi qe qs)))) := by
    cases qd <;> exact h2
  -- the grandparent turns red and sinks away from it
  obtain ⟨t3, w3, h3, k3⟩ := h2q.setCol_node .red
  have h3g : Holds t3 (Path.fill path (.join qd.other .red sg ig eg
      (.join qd.other .black qs qi qe m))) := by
    cases qd <;> exact h3
  obtain ⟨t4, w4, h4, k4⟩ := h3g.rotate
  have result : Path.fill path (.join qd.other .black (.join qd.other .red sg ig eg qs) qi qe m) =
      Path.fill path (turn ⟨qd, cg, ig, eg, sg⟩ p n) := by
    rw [turned]
    cases qd <;> rfl
  have whole : Path.fill (⟨qd, .black, qi, qe, .join qd .red qs ig eg sg⟩ :: path) m =
      Path.fill path (turn ⟨qd, cg, ig, eg, sg⟩ p n) := by
    rw [turned]
    rfl
  refine ⟨t4, ⟨qd, .black, qi, qe, .join qd .red qs ig eg sg⟩ :: path, m, ?_, ?_, some_, rfl, whole,
    ?_⟩
  · cases n with
    | nil => cases redn
    | node c l i e r =>
      cases m with
      | nil => exact absurd rfl some_
      | node mc ml mi me mr =>
        have readn := get_at h.at_node
        have readp := get_at (Holds.at_join h)
        have readg := get_at hg.at_join
        have readm := get_at h1.at_node
        have readq := get_at h2.at_node
        simp only [above] at readm
        simp only [insertFixupSide, ptr_node, readn, ok_bind, above, readp, cell_parent, readg,
          child_other_cell, readu, if_neg notRed] at run1 ⊢
        rw [run1]
        simp only [ok_bind, readm, w2, readq, above, w3, w4, pure_ok]
  · rw [whole, ← result]
    exact h4
  · have some_n : n ≠ .nil := by
      rintro rfl
      cases redn
    have same : (Path.fill path (turn ⟨qd, cg, ig, eg, sg⟩ p n)).ids =
        (Path.fill (p :: ⟨qd, cg, ig, eg, sg⟩ :: path) n).ids := by
      simp only [Tree.ids, Path.toList_fill, turn_toList some_n, Path.fill_cons]
    have inside : ∀ a, a = qi ∨ a = ig ∨ a ∈ (Path.fill path (.join qd.other .red sg ig eg
        (.join qd.other .black qs qi qe m))).ids →
        a ∈ (Path.fill (p :: ⟨qd, cg, ig, eg, sg⟩ :: path) n).ids := by
      intro a member
      rw [← same, turned, mem_ids_fill, mem_ids_join, mem_ids_join]
      simp only [mem_ids_fill, mem_ids_join] at member
      tauto
    refine ((k1.trans (k2.mono fun a m => inside a (.inl (List.mem_singleton.mp m)))).trans
      (k3.mono fun a m => inside a (.inr (.inl (List.mem_singleton.mp m))))).trans
      (k4.mono fun a m => inside a (.inr (.inr m)))

end

theorem plug_ne_nil (p : Frame Nat (Entry V)) (n : NodeTree V) : p.plug n ≠ .nil := by
  exact Tree.join_ne_nil

/-- Under a red parent the loop takes the side of the grandparent on which the parent is. -/
theorem insertFixupLoop_step {path : NodePath V} {p g : Frame Nat (Entry V)} {n : NodeTree V}
    (h : Holds t (Path.fill (p :: g :: path) n)) (some_ : n ≠ .nil) (red : p.color = .red)
    (fuel : Nat) : insertFixupLoop (fuel + 1) t (ptr n) =
      t.insertFixupSide g.dir (ptr n) >>= fun r => insertFixupLoop fuel r.1 r.2 := by
  cases n with
  | nil => exact absurd rfl some_
  | node c l i e r =>
    have hg : Holds t (Path.fill path (.join g.dir g.color (p.plug (.node c l i e r)) g.id g.val
        g.sib)) := h
    have readn : t.get (.at i) = .ok ⟨ptr l, ptr r, .at p.id, c, e⟩ := get_at h.at_node
    have readp : t.get (.at p.id) = .ok (cell p.dir (.at i) (ptr p.sib) (.at g.id) p.color p.val) :=
      get_at (Holds.at_join h)
    have readg := get_at hg.at_join
    have side := hg.side (.inl (plug_ne_nil p _))
    rw [ptr_plug] at side readg
    simp only [insertFixupLoop, ptr_node, readn, ok_bind, readp, cell_col, red, if_true,
      cell_parent, readg, side]

/-- The whole loop and the last line of `rbtree_insert_fixup`. The root is black, so that a red
node has a parent. -/
theorem insertFixupLoop_spec (path : NodePath V) {n : NodeTree V} {fuel : Nat} {t : Rbtree V}
    (h : Holds t (Path.fill path n)) (redn : n.color = .red)
    (root : path = [] ∨ (Path.fill path n).color = .black) (enough : path.length < fuel) :
    ∃ t' tree, insertFixupLoop fuel t (ptr n) = .ok t' ∧ Holds t' tree ∧
      tree.paint .black = RedBlack.insertFixup n path ∧ Keeps (Path.fill path n).ids t t' := by
  have some_ : n ≠ .nil := by
    rintro rfl
    cases redn
  obtain ⟨fuel, rfl⟩ : ∃ f, fuel = f + 1 := ⟨fuel - 1, by omega⟩
  fun_induction RedBlack.insertFixup n path generalizing fuel t with
  | case1 n => exact ⟨t, n, insertFixupLoop_end h some_ (.inl rfl) fuel, h, rfl, .refl ..⟩
  | case2 n p =>
    have black : p.color = .black := by
      rcases root with none | black
      · cases none
      · rwa [Path.fill_cons, Path.fill_nil, Frame.plug, Tree.color_join] at black
    exact ⟨t, p.plug n, insertFixupLoop_end h some_ (.inr (congrArg some black)) fuel, h, rfl,
      .refl ..⟩
  | case3 n p g path black =>
    exact ⟨t, _, insertFixupLoop_end h some_ (.inr (congrArg some black)) fuel, h, rfl, .refl ..⟩
  | case4 n p g path notBlack uncle ih =>
    have red := Color.red_of_ne_black notBlack
    obtain ⟨t1, run1, h1, k1⟩ := insertFixupSide_up h some_ uncle
    simp only [List.length_cons] at enough
    have rootUp : path = [] ∨ (Path.fill path (.join g.dir .red ((p.plug n).paint .black) g.id g.val
        (g.sib.paint .black))).color = .black := by
      cases path with
      | nil => exact .inl rfl
      | cons f path =>
        rcases root with none | black
        · cases none
        · exact .inr ((Path.color_fill f path _ _).trans black)
    have someUp : Tree.join g.dir .red ((p.plug n).paint .black) g.id g.val
        (g.sib.paint .black) ≠ .nil := plug_ne_nil ⟨g.dir, .red, g.id, g.val, _⟩ _
    obtain ⟨fuel, rfl⟩ : ∃ f, fuel = f + 1 := ⟨fuel - 1, by omega⟩
    obtain ⟨t2, tree, run2, h2, painted, k2⟩ :=
      ih h1 (Tree.color_join ..) rootUp someUp fuel (by omega)
    rw [ptr_join] at run2
    have ids : (Path.fill path (.join g.dir .red ((p.plug n).paint .black) g.id g.val
        (g.sib.paint .black))).ids = (Path.fill (p :: g :: path) n).ids := by
      simp only [Tree.ids, Path.toList_fill, Path.fill_cons]
      obtain ⟨d, c, i, e, s⟩ := g
      cases d <;> simp [Frame.plug, Tree.join]
    refine ⟨t2, tree, ?_, h2, painted, k1.trans (ids ▸ k2)⟩
    rw [insertFixupLoop_step h some_ red, run1, ok_bind, run2]
  | case5 n p g path notBlack uncle =>
    have red := Color.red_of_ne_black notBlack
    obtain ⟨t1, q, m, run1, h1, some_m, head, same, k1⟩ :=
      insertFixupSide_done h red redn (Color.black_of_ne_red uncle)
    simp only [List.length_cons] at enough
    obtain ⟨fuel, rfl⟩ : ∃ f, fuel = f + 1 := ⟨fuel - 1, by omega⟩
    refine ⟨t1, _, ?_, h1, congrArg _ same, k1⟩
    rw [insertFixupLoop_step h some_ red, run1, ok_bind]
    exact insertFixupLoop_end h1 some_m (.inr head) fuel

theorem insertFixup_spec {path : NodePath V} {n : NodeTree V} (h : Holds t (Path.fill path n))
    (redn : n.color = .red) (root : path = [] ∨ (Path.fill path n).color = .black) :
    ∃ t', t.insertFixup (ptr n) = .ok t' ∧ Holds t' (RedBlack.insertFixup n path) ∧
      Keeps (Path.fill path n).ids t t' := by
  obtain ⟨t1, tree, run, h1, painted, k1⟩ := insertFixupLoop_spec path h redn root h.path_lt
  have whole : Holds t1 (Path.fill [] tree) := h1
  obtain ⟨t2, last, h2, k2⟩ := whole.setCol_black
  have same : tree.ids = (Path.fill path n).ids := by
    have some_ : n ≠ .nil := by
      rintro rfl
      cases redn
    rw [← Tree.ids_paint .black tree, painted]
    simp only [Tree.ids, insertFixup_toList path some_]
  refine ⟨t2, ?_, painted ▸ h2, k1.trans (same ▸ k2)⟩
  rw [insertFixup, run, ok_bind, h1.root]
  exact last

/-- Which way the search for a key went at a node. -/
def Turned (key : Int) (f : Frame Nat (Entry V)) : Prop :=
  f.dir = .left ∧ key < f.val.key ∨ f.dir = .right ∧ f.val.key < key

theorem locate_turned {key : Int} {n : NodeTree V} {path place : NodePath V}
    (found : locate Entry.key key n path = some place) (turned : ∀ f ∈ path, Turned key f) :
    ∀ f ∈ place, Turned key f := by
  induction n generalizing path with
  | nil =>
    cases found
    exact turned
  | node c l i e r ihl ihr =>
    unfold locate at found
    split at found
    · rename_i less
      apply ihl found
      rw [List.forall_mem_cons]
      exact ⟨.inl ⟨rfl, less⟩, turned⟩
    · split at found
      · rename_i more
        apply ihr found
        rw [List.forall_mem_cons]
        exact ⟨.inr ⟨rfl, more⟩, turned⟩
      · cases found

/-- The search of the source finds the place that the search on trees finds. -/
theorem findPlace_spec {n : NodeTree V} {path : NodePath V} {p : Ptr} {key : Int} {fuel : Nat}
    (h : Holds t (Path.fill path n)) (before : p = above path ∨ n ≠ .nil)
    (enough : n.ids.length < fuel) :
    t.findPlace key fuel (ptr n) p = .ok ((locate Entry.key key n path).map above) := by
  induction n generalizing path p fuel with
  | nil =>
    obtain ⟨fuel, rfl⟩ : ∃ f, fuel = f + 1 := ⟨fuel - 1, by omega⟩
    rcases before with rfl | none
    · exact if_pos h.nil.symm
    · exact absurd rfl none
  | node c l i e r ihl ihr =>
    obtain ⟨fuel, rfl⟩ : ∃ f, fuel = f + 1 := ⟨fuel - 1, by omega⟩
    simp only [Tree.ids_node, List.length_append, List.length_cons] at enough
    have notNil : Ptr.at i ≠ t.nil := by
      apply h.not_nil
      rw [mem_ids_fill]
      simp
    have left : Holds t (Path.fill (⟨.left, c, i, e, r⟩ :: path) l) := h
    have right : Holds t (Path.fill (⟨.right, c, i, e, l⟩ :: path) r) := h
    simp only [findPlace, ptr_node, if_neg notNil, get_at h.at_node, ok_bind, locate]
    split
    · exact ihl left (.inl rfl) (by omega)
    · split
      · exact ihr right (.inl rfl) (by omega)
      · rfl

theorem Holds.search {tree : NodeTree V} (h : Holds t tree) (key : Int) :
    t.findPlace key t.fresh t.root t.root = .ok ((locate Entry.key key tree []).map above) := by
  have whole : Holds t (Path.fill [] tree) := h
  rw [h.root]
  apply findPlace_spec whole _ h.length_lt
  cases tree with
  | nil => exact .inl rfl
  | node => exact .inr nofun

theorem Holds.alloc {tree : NodeTree V} (h : Holds t tree) (e : Entry V) :
    Holds (t.alloc e) tree ∧ (t.alloc e).heap t.fresh = some ⟨.wild, .wild, .wild, .black, e⟩ ∧
      Agree [t.fresh] t.heap (t.alloc e).heap := by
  have agree : Agree [t.fresh] t.heap (t.alloc e).heap := put_agree t t.fresh _
  refine ⟨⟨h.nil, h.root, ?_, ?_, h.apart, h.distinct, ?_, Nat.succ_pos _⟩, ?_, agree⟩
  · apply cells_congr _ h.cells
    intro a member
    exact agree.one (Nat.ne_of_lt (h.allocated a member))
  · rw [agree.one (Nat.ne_of_lt h.start)]
    exact h.sentinel
  · intro a member
    exact Nat.lt_succ_of_lt (h.allocated a member)
  · exact Function.update_self ..

theorem hang_spec {place : NodePath V} {key : Int} {old : Ptr} (nil : t.nil = .at 0)
    (cells : PathCells t.heap place old) (distinct : (pathIds place).Nodup)
    (apart : 0 ∉ pathIds place) (turned : ∀ f ∈ place, Turned key f) (new : Ptr) :
    ∃ t', t.hang (above place) new key = .ok t' ∧ PathCells t'.heap place new ∧
      Keeps (pathIds place) t t' ∧ t'.root = if place = [] then new else t.root := by
  cases place with
  | nil => exact ⟨_, if_pos nil.symm, trivial, ⟨rfl, rfl, fun _ _ => rfl⟩, rfl⟩
  | cons f place =>
    have notNil : above (f :: place) ≠ t.nil := by
      rw [nil]
      intro same
      rw [above, Ptr.at.injEq] at same
      simp [pathIds, same] at apart
    obtain ⟨t', run, below, keeps, root⟩ := setChild_above cells distinct new
    have read : t.get (above (f :: place)) = .ok _ := get_at cells.1
    refine ⟨t', ?_, below, keeps.mono (by simp [pathIds]), root⟩
    simp only [hang, if_neg notNil, read, ok_bind]
    rcases turned f (by simp) with ⟨left, less⟩ | ⟨right, more⟩
    · exact (if_pos less).trans (left ▸ run)
    · exact (if_neg (Int.lt_asymm more)).trans (right ▸ run)

/-- `_rbtree_insert_node` when no node has the key. -/
theorem insertNode_spec {tree tree' : NodeTree V} (h : Holds t tree) (root : tree.color = .black)
    {e : Entry V} (done : RedBlack.insert Entry.key t.fresh e tree = some tree') :
    ∃ t', (t.alloc e).insertNode (.at t.fresh) = .ok t' ∧ Holds t' tree' ∧
      t'.fresh = t.fresh + 1 ∧ Agree (t.fresh :: tree.ids) t.heap t'.heap := by
  obtain ⟨place, found, rfl⟩ := Option.map_eq_some_iff.mp done
  have same : Path.fill place .nil = tree := locate_fill found
  obtain ⟨h1, here, k1⟩ := h.alloc e
  -- what is known of the place in the old tree
  have inside : ∀ a ∈ pathIds place, a ∈ tree.ids := by
    intro a member
    rw [← same, mem_ids_fill]
    exact .inr member
  have old : ∀ a ∈ pathIds place, a ≠ t.fresh := fun a m =>
    Nat.ne_of_lt (h.allocated a (inside a m))
  have h1' := h1
  rw [← same] at h1'
  obtain ⟨pathCells, _⟩ := cells_fill.mp h1'.cells
  obtain ⟨_, distinct, _⟩ := nodup_ids_fill.mp h1'.distinct
  have apart : 0 ∉ pathIds place := fun member => h.apart (inside 0 member)
  -- n->parent = p, then the link from above
  obtain ⟨t2, w2, here2, k2, r2⟩ : ∃ t2, (t.alloc e).setParent (.at t.fresh) (above place) = .ok t2 ∧
      t2.heap t.fresh = some ⟨.wild, .wild, above place, .black, e⟩ ∧
      Keeps [t.fresh] (t.alloc e) t2 ∧ t2.root = (t.alloc e).root :=
    ⟨_, modify_at here _, Function.update_self .., put_keeps .., rfl⟩
  have path2 : PathCells t2.heap place (.at 0) :=
    pathCells_congr (fun a member => k2.heap.one (old a member)) pathCells
  obtain ⟨t3, w3, path3, k3, r3⟩ := hang_spec (k2.nil.trans h1.nil) path2 distinct apart
    (locate_turned found (by simp)) (.at t.fresh)
  have here3 : t3.heap t.fresh = some ⟨.wild, .wild, above place, .black, e⟩ :=
    (k3.heap _ fun member => old _ member rfl).trans here2
  -- the fields of the new node
  obtain ⟨t4, w4, here4, k4, r4⟩ : ∃ t4, t3.setChild .right (.at t.fresh) t3.nil = .ok t4 ∧
      t4.heap t.fresh = some ⟨.wild, t3.nil, above place, .black, e⟩ ∧ Keeps [t.fresh] t3 t4 ∧
      t4.root = t3.root :=
    ⟨_, modify_at here3 _, Function.update_self .., put_keeps .., rfl⟩
  obtain ⟨t5, w5, here5, k5, r5⟩ : ∃ t5, t4.setChild .left (.at t.fresh) t4.nil = .ok t5 ∧
      t5.heap t.fresh = some ⟨t4.nil, t3.nil, above place, .black, e⟩ ∧ Keeps [t.fresh] t4 t5 ∧
      t5.root = t4.root :=
    ⟨_, modify_at here4 _, Function.update_self .., put_keeps .., rfl⟩
  obtain ⟨t6, w6, here6, k6, r6⟩ : ∃ t6, t5.setCol (.at t.fresh) .red = .ok t6 ∧
      t6.heap t.fresh = some ⟨t4.nil, t3.nil, above place, .red, e⟩ ∧ Keeps [t.fresh] t5 t6 ∧
      t6.root = t5.root :=
    ⟨_, modify_at here5 _, Function.update_self .., put_keeps .., rfl⟩
  have fields : Keeps [t.fresh] t3 t6 := (k4.trans k5).trans k6
  have n3 : t3.nil = .at 0 := k3.nil.trans (k2.nil.trans h1.nil)
  have n4 : t4.nil = .at 0 := k4.nil.trans n3
  rw [n3, n4] at here6
  have ids : (Path.fill place (.node .red .nil t.fresh e .nil)).ids.Perm (t.fresh :: tree.ids) := by
    apply (ids_fill ..).trans
    rw [← same]
    exact (List.Perm.cons _ (ids_fill place .nil)).symm
  have fresh6 : t6.fresh = t.fresh + 1 :=
    fields.fresh.trans (k3.fresh.trans k2.fresh)
  have h6 : Holds t6 (Path.fill place (.node .red .nil t.fresh e .nil)) := by
    constructor
    · exact fields.nil.trans n3
    · rw [r6, r5, r4, r3]
      cases place with
      | nil => rfl
      | cons f place =>
        simp only [reduceCtorEq, if_false, Path.fill_cons]
        rw [r2, h1'.root, Path.fill_cons]
        exact ptr_fill place (by simp)
    · rw [cells_fill]
      refine ⟨?_, here6, trivial, trivial⟩
      exact pathCells_congr (fun a member => fields.heap.one (old a member)) path3
    · have notFresh : 0 ≠ t.fresh := Nat.ne_of_lt h.start
      rw [fields.heap.one notFresh, k3.heap 0 apart, k2.heap.one notFresh]
      exact h1.sentinel
    · intro member
      rcases List.mem_cons.mp (ids.mem_iff.mp member) with fresh | inner
      · exact Nat.ne_of_lt h.start fresh
      · exact h.apart inner
    · rw [ids.nodup_iff, List.nodup_cons]
      exact ⟨fun member => Nat.lt_irrefl _ (h.allocated _ member), h.distinct⟩
    · intro a member
      rw [fresh6]
      rcases List.mem_cons.mp (ids.mem_iff.mp member) with rfl | inner
      · exact Nat.lt_succ_self _
      · exact Nat.lt_succ_of_lt (h.allocated a inner)
    · rw [fresh6]
      exact Nat.succ_pos _
  have rootBlack : place = [] ∨
      (Path.fill place (.node .red .nil t.fresh e .nil)).color = .black := by
    cases place with
    | nil => exact .inl rfl
    | cons f place =>
      rw [← same] at root
      exact .inr ((Path.color_fill f place _ _).trans root)
  obtain ⟨t7, w7, h7, k7⟩ := insertFixup_spec h6 rfl rootBlack
  refine ⟨t7, ?_, h7, k7.fresh.trans fresh6, ?_⟩
  · have search := h1.search e.key
    rw [found, Option.map_some] at search
    rw [ptr_node] at w7
    simp only [insertNode, get_at here, ok_bind, search, w2, w3, w4, w5, w6, w7]
  · intro a outside
    rw [List.mem_cons, not_or] at outside
    have notPath : a ∉ pathIds place := fun member => outside.2 (inside a member)
    have notNew : a ∉ (Path.fill place (.node .red .nil t.fresh e .nil)).ids := by
      rw [ids.mem_iff, List.mem_cons, not_or]
      exact outside
    rw [k7.heap a notNew, fields.heap.one outside.1, k3.heap a notPath, k2.heap.one outside.1,
      k1.one outside.1]

theorem insert_absent {tree tree' : NodeTree V} (h : Holds t tree) (root : tree.color = .black)
    {key : Int} {v : V}
    (done : RedBlack.insert Entry.key t.fresh ⟨key, v⟩ tree = some tree') :
    ∃ t', t.insert key v = .ok (t', .at t.fresh) ∧ Holds t' tree' ∧ t'.fresh = t.fresh + 1 ∧
      Agree (t.fresh :: tree.ids) t.heap t'.heap := by
  obtain ⟨t', run, rest⟩ := insertNode_spec h root done
  refine ⟨t', ?_, rest⟩
  rw [insert, run, ok_bind, pure_ok]

/-- When a node has the key, the new node is returned but stays outside the tree. -/
theorem insert_present {tree : NodeTree V} (h : Holds t tree) {key : Int} {v : V}
    (found : RedBlack.insert Entry.key t.fresh ⟨key, v⟩ tree = none) :
    t.insert key v = .ok (t.alloc ⟨key, v⟩, .at t.fresh) := by
  obtain ⟨h1, here, _⟩ := h.alloc ⟨key, v⟩
  have nowhere := Option.map_eq_none_iff.mp found
  have search := h1.search key
  rw [nowhere, Option.map_none] at search
  simp only [insert, insertNode, get_at here, ok_bind, search, pure_ok]

theorem minLoop_spec {n : NodeTree V} {path : NodePath V} {least : Ptr} {fuel : Nat}
    (h : Holds t (Path.fill path n)) (enough : n.ids.length < fuel) :
    t.minLoop fuel (ptr n) least = .ok (match n.toList with
      | [] => least
      | x :: _ => .at x.1) := by
  induction n generalizing path least fuel with
  | nil =>
    obtain ⟨fuel, rfl⟩ : ∃ f, fuel = f + 1 := ⟨fuel - 1, by omega⟩
    exact if_pos h.nil.symm
  | node c l i e r ihl _ =>
    obtain ⟨fuel, rfl⟩ : ∃ f, fuel = f + 1 := ⟨fuel - 1, by omega⟩
    simp only [Tree.ids_node, List.length_append, List.length_cons] at enough
    have notNil : Ptr.at i ≠ t.nil := by
      apply h.not_nil
      rw [mem_ids_fill]
      simp
    have left : Holds t (Path.fill (⟨.left, c, i, e, r⟩ :: path) l) := h
    simp only [minLoop, ptr_node, if_neg notNil, get_at h.at_node, ok_bind]
    rw [ihl left (by omega), Tree.toList_node]
    cases l.toList <;> rfl

theorem min_spec {tree : NodeTree V} (h : Holds t tree) :
    t.min = .ok (match tree.toList with
      | [] => t.nil
      | x :: _ => .at x.1) := by
  have whole : Holds t (Path.fill [] tree) := h
  rw [Rbtree.min, h.root, minLoop_spec whole h.length_lt]
  cases tree with
  | nil => rw [h.nil]; rfl
  | node c l i e r => rw [Tree.toList_node]; cases l.toList <;> rfl

end Yamq.Rbtree
