import Yamq.Lib.RedBlack.Delete

/-! What a deletion does to the invariants. It always has a result, and the result is valid unless
the last case was taken on the right side. -/
namespace RedBlack

variable {ι α : Type}

/-- A subtree for a place of black height `n + 1` that lacks one black node, unless its root is red
and painting it makes up for that. -/
def Deficient (x : Tree ι α) (n : Nat) : Prop :=
  x.color = .red ∧ Balanced (x.paint .black) (n + 1) ∨ x.color = .black ∧ Balanced x n

section
variable {d : Dir} {x w : Tree ι α} {c : Color} {i : ι} {a : α} {n : Nat}

theorem Balanced.paint_any {t : Tree ι α} (h : Balanced t n) :
    ∃ m, Balanced (t.paint .black) m := by
  cases h with
  | nil => exact ⟨0, .nil⟩
  | red _ _ bl br => exact ⟨_, .black bl br⟩
  | black bl br => exact ⟨_, .black bl br⟩

/-- A sibling of a place that lacks a black node has what the cases look at. -/
theorem fixAt_some (bw : Balanced w (n + 1)) : ∃ o, fixAt d x c i a w = some o := by
  obtain ⟨wc, wl, wi, wa, wr, rfl⟩ := bw.eq_node
  exact fixAt_node ..

theorem balanced_pick {l r : Tree ι α} (bl : Balanced l n) (br : Balanced r n) :
    Balanced (d.pick l r) n ∧ Balanced (d.pick r l) n := by
  cases d
  · exact ⟨bl, br⟩
  · exact ⟨br, bl⟩

/-- The last case on the left side settles the place for good. -/
theorem settle_balanced {near far : Tree ι α} {wi : ι} {wa : α} (bx : Balanced x n)
    (bn : Balanced near n) (bf : Balanced (far.paint .black) (n + 1)) :
    (c = .red → Balanced (settle .left c x i a near wi wa far) (n + 1)) ∧
      (c = .black → Balanced (settle .left c x i a near wi wa far) (n + 2)) := by
  have top : Balanced (.join .left .black x i a near) (n + 1) := balanced_join_black.mpr ⟨bx, bn⟩
  constructor
  · rintro rfl
    rw [settle, balanced_join_red]
    exact ⟨Tree.color_join .., color_paint_black far, top, bf⟩
  · rintro rfl
    rw [settle, balanced_join_black]
    exact ⟨top, bf⟩

@[simp] theorem color_settle {near far : Tree ι α} {wi : ι} {wa : α} :
    (settle d c x i a near wi wa far).color = c := by
  cases d <;> simp [settle]

/-- What the cases for a black sibling leave, by how they end. -/
def Repaired (d : Dir) (c : Color) (n : Nat) : Outcome ι α → Prop
  | .up t => t.color = c ∧ Balanced (t.paint .black) (n + 1)
  | .done t => t.color = c ∧ (d = .left → (c = .red → Balanced t (n + 1)) ∧
      (c = .black → Balanced t (n + 2)))

theorem fixAt_repaired {o : Outcome ι α} (bx : Balanced x n) (bw : Balanced w (n + 1))
    (black : w.color = .black) (ends : fixAt d x c i a w = some o) : Repaired d c n o := by
  obtain ⟨wc, wl, wi, wa, wr, rfl, cases_⟩ := fixAt_cases ends
  cases black
  cases bw with
  | black bl br =>
    obtain ⟨near, far⟩ := balanced_pick (d := d) bl br
    rcases cases_ with ⟨hl, hr, rfl⟩ | ⟨nc, nl, ni, na, nr, shape, rfl, black, rfl⟩ | ⟨red, rfl⟩
    · refine ⟨Tree.color_join .., ?_⟩
      rw [Tree.paint_join]
      cases d
      · exact .black bx (.red hl hr bl br)
      · exact .black (.red hl hr bl br) bx
    · refine ⟨color_settle, ?_⟩
      rintro rfl
      rw [shape] at near
      cases near with
      | red _ hr bnl bnr =>
        refine settle_balanced bx bnl ?_
        rw [Tree.paint_join, balanced_join_black]
        exact ⟨bnr, far⟩
    · refine ⟨color_settle, ?_⟩
      rintro rfl
      exact settle_balanced bx near (far.paint_black red)

end

section
variable {f : Frame ι α} {path : Path ι α} {t : Tree ι α} {n : Nat}

theorem Fits.sibling (fits : Fits (f :: path) n) : Balanced f.sib n := by
  cases fits with
  | red _ _ _ bs => exact bs
  | black _ bs => exact bs

theorem color_sibling (notRed : ∀ l i a r, f.sib ≠ .node .red l i a r) : f.sib.color = .black := by
  cases h : f.sib with
  | nil => rfl
  | node c l i a r =>
    cases c with
    | red => exact absurd h (notRed l i a r)
    | black => rfl

/-- The place above lacks a black node now, unless its colour makes up for that. -/
theorem Fits.climb (fits : Fits (f :: path) (n + 1)) (good : Repaired f.dir f.color n (.up t)) :
    ∃ k, Fits path (k + 1) ∧ Deficient t k := by
  obtain ⟨color, balanced⟩ := good
  cases fits with
  | red red _ _ _ rest => exact ⟨n, rest, .inl ⟨color.trans red, balanced⟩⟩
  | black black _ rest =>
    have blackRoot := color.trans black
    rw [← blackRoot, Tree.paint_color] at balanced
    exact ⟨n + 1, rest, .inr ⟨blackRoot, balanced⟩⟩

end

/-- The repair of a place that lacks a black node always ends, and on the left side well. -/
theorem deleteFixup_spec (path : Path ι α) {x : Tree ι α} {n : Nat} (fits : Fits path (n + 1))
    (lacks : Deficient x n) :
    ∃ t slip, deleteFixup x path = some (t, slip) ∧ (slip = false → Valid t) := by
  induction path generalizing x n with
  | nil =>
    refine ⟨x.paint .black, false, rfl, fun _ => ⟨color_paint_black x, ?_⟩⟩
    rcases lacks with ⟨_, balanced⟩ | ⟨_, balanced⟩
    · exact ⟨_, balanced⟩
    · exact balanced.paint_any
  | cons f path ih =>
    rcases lacks with ⟨red, balanced⟩ | ⟨black, bx⟩
    · refine ⟨_, false, by rw [deleteFixup, if_pos red], fun _ => ?_⟩
      exact fill_valid fits balanced (.inr (color_paint_black x))
    have notRed : x.color ≠ .red := by
      rw [black]
      decide
    rw [deleteFixup, if_neg notRed]
    -- what is known of the frame does not depend on its colour until the place is filled
    have sibling := fits.sibling
    split
    · rename_i wl wi wa wr sib
      rw [sib] at sibling
      cases sibling with
      | red hl hr bl br =>
        have above : f.color = .black := by
          cases fits with
          | red _ _ hs =>
            rw [sib] at hs
            cases hs
          | black color => exact color
        obtain ⟨near, far⟩ := balanced_pick (d := f.dir) bl br
        have nearBlack : (f.dir.pick wl wr).color = .black := by
          cases f.dir
          · exact hl
          · exact hr
        have farBlack : (f.dir.pick wr wl).color = .black := by
          cases f.dir
          · exact hr
          · exact hl
        have rest : Fits path (n + 2) := by
          cases fits with
          | red color =>
            rw [above] at color
            cases color
          | black _ _ rest => exact rest
        let up : Path ι α := ⟨f.dir, .black, wi, wa, f.dir.pick wr wl⟩ :: path
        have fitsUp : Fits up (n + 1) := .black rfl far rest
        have headUp : Path.above up = some .black := rfl
        obtain ⟨o, ends⟩ := fixAt_some (d := f.dir) (x := x) (c := .red) (i := f.id) (a := f.val) near
        have good := fixAt_repaired bx near nearBlack ends
        simp only [ends]
        cases o with
        | up t => exact ⟨_, _, rfl, fun _ => fill_valid fitsUp good.2 (.inl headUp)⟩
        | done t =>
          refine ⟨_, _, rfl, fun left => ?_⟩
          have onLeft : f.dir = .left := by
            cases h : f.dir
            · rfl
            · simp [h] at left
          have whole := fill_valid fitsUp ((good.2 onLeft).1 rfl) (.inl headUp)
          rw [whole.paint]
          exact whole
    · rename_i notRedSib
      have sibBlack := color_sibling notRedSib
      obtain ⟨o, ends⟩ := fixAt_some (d := f.dir) (x := x) (c := f.color) (i := f.id) (a := f.val) sibling
      have good := fixAt_repaired bx sibling sibBlack ends
      simp only [ends]
      cases o with
      | up t =>
        obtain ⟨k, rest, lacks⟩ := fits.climb good
        exact ih rest lacks
      | done t =>
        refine ⟨_, _, rfl, fun left => ?_⟩
        have onLeft : f.dir = .left := by
          cases h : f.dir
          · rfl
          · simp [h] at left
        obtain ⟨color, balanced⟩ := good
        have whole : Valid (Path.fill path t) := by
          cases fits with
          | red red head _ _ rest => exact fill_valid rest ((balanced onLeft).1 red) (.inl head)
          | black black _ rest =>
            exact fill_valid rest ((balanced onLeft).2 black) (.inr (color.trans black))
        rw [whole.paint]
        exact whole

/-- A place whose black node with at most one child has gone lacks that node. -/
theorem splice_lacks {path : Path ι α} {l r x : Tree ι α} {i : ι} {a : α}
    (valid : Valid (Path.fill path (.node .black l i a r)))
    (one : l = .nil ∧ x = r ∨ r = .nil ∧ x = l) : ∃ n, Fits path (n + 1) ∧ Deficient x n := by
  obtain ⟨n, fits, balanced, _⟩ := split_valid valid
  cases balanced with
  | @black _ _ _ _ n bl br =>
    have bx : Balanced x n := by
      rcases one with ⟨_, rfl⟩ | ⟨_, rfl⟩
      · exact br
      · exact bl
    refine ⟨n, fits, ?_⟩
    cases color : x.color with
    | red => exact .inl ⟨color, bx.paint_black color⟩
    | black => exact .inr ⟨color, bx⟩

theorem splice_spec {path : Path ι α} {c : Color} {l r x : Tree ι α} {i : ι} {a : α}
    (valid : Valid (Path.fill path (.node c l i a r))) (one : l = .nil ∧ x = r ∨ r = .nil ∧ x = l) :
    ∃ t slip, splice c x path = some (t, slip) ∧ (slip = false → Valid t) := by
  cases c with
  | red =>
    obtain ⟨n, fits, balanced, suits⟩ := split_valid valid
    cases balanced with
    | red hl hr bl br =>
      refine ⟨_, false, rfl, fun _ => ?_⟩
      have none : x = .nil := by
        rcases one with ⟨rfl, rfl⟩ | ⟨rfl, rfl⟩
        · cases bl
          exact br.eq_nil hr
        · cases br
          exact bl.eq_nil hl
      have zero : n = 0 := by
        rcases one with ⟨rfl, _⟩ | ⟨rfl, _⟩
        · cases bl
          rfl
        · cases br
          rfl
      subst none zero
      exact fill_valid fits .nil (.inr rfl)
  | black =>
    obtain ⟨n, fits, lacks⟩ := splice_lacks valid one
    exact deleteFixup_spec path fits lacks

/-- New contents for a node change no colour. -/
theorem valid_contents {path : Path ι α} {c : Color} {l r : Tree ι α} {i j : ι} {a b : α}
    (valid : Valid (Path.fill path (.node c l i a r))) : Valid (Path.fill path (.node c l j b r)) := by
  obtain ⟨n, fits, balanced, suits⟩ := split_valid valid
  refine fill_valid fits ?_ suits
  cases balanced with
  | red hl hr bl br => exact .red hl hr bl br
  | black bl br => exact .black bl br

/-- A deletion takes out a node with at most one child, of a tree that is as valid. -/
theorem delete_splice {path : Path ι α} {c : Color} {l r : Tree ι α} {i : ι} {a : α}
    (valid : Valid (Path.fill path (.node c l i a r))) : ∃ c' x sub l' j b r',
      delete path c l i r = splice c' x sub ∧ Valid (Path.fill sub (.node c' l' j b r')) ∧
      (l' = .nil ∧ x = r' ∨ r' = .nil ∧ x = l') := by
  cases l with
  | nil => exact ⟨c, r, path, .nil, i, a, r, by cases r <;> rfl, valid, .inl ⟨rfl, rfl⟩⟩
  | node lc ll li la lr =>
    cases r with
    | nil => exact ⟨c, _, path, _, i, a, .nil, rfl, valid, .inr ⟨rfl, rfl⟩⟩
    | node rc rl ri ra rr =>
      rcases found : leftmost rc rl ri ra rr [] with ⟨yc, yi, ya, yr, sub⟩
      have same := leftmost_fill _ _ _ _ _ _ found
      refine ⟨yc, yr, sub ++ ⟨.right, c, i, ya, .node lc ll li la lr⟩ :: path, .nil, yi, ya, yr,
        by simp only [delete, found], ?_, .inl ⟨rfl, rfl⟩⟩
      rw [fill_append, same]
      have renamed := valid_contents (j := i) (b := ya) valid
      exact renamed

theorem delete_spec {path : Path ι α} {c : Color} {l r : Tree ι α} {i : ι} {a : α}
    (valid : Valid (Path.fill path (.node c l i a r))) :
    ∃ t slip, delete path c l i r = some (t, slip) ∧ (slip = false → Valid t) := by
  obtain ⟨c', x, sub, _, _, _, _, same, before, one⟩ := delete_splice valid
  rw [same]
  exact splice_spec before one

theorem deleteFixup_color (path : Path ι α) {x y t : Tree ι α} {slip : Bool}
    (black : path = [] ∨ (Path.fill path y).color = .black)
    (ends : deleteFixup x path = some (t, slip)) : t.color = .black := by
  induction path generalizing x y with
  | nil =>
    cases ends
    exact color_paint_black x
  | cons f path ih =>
    have root (z : Tree ι α) : (Path.fill (f :: path) z).color = .black := by
      rw [Path.color_fill f path z y]
      exact black.resolve_left nofun
    unfold deleteFixup at ends
    split at ends
    · cases ends
      exact root _
    · split at ends
      · split at ends <;> cases ends
        · cases path with
          | nil => exact Tree.color_join ..
          | cons g path => exact (Path.color_fill g path _ _).trans (root .nil)
        · exact color_paint_black _
      · split at ends
        · cases ends
        · exact ih (.inr (root .nil)) ends
        · cases ends
          exact color_paint_black _

theorem splice_color {path : Path ι α} {c : Color} {x l r t : Tree ι α} {i : ι} {a : α} {slip : Bool}
    (black : (Path.fill path (.node c l i a r)).color = .black)
    (ends : splice c x path = some (t, slip)) : t.color = .black := by
  unfold splice at ends
  split at ends
  · exact deleteFixup_color path (.inr black) ends
  · rename_i red
    cases ends
    cases path with
    | nil => exact absurd black red
    | cons f path => rwa [Path.color_fill f path x]

theorem delete_color {path : Path ι α} {c : Color} {l r t : Tree ι α} {i : ι} {a : α} {slip : Bool}
    (black : (Path.fill path (.node c l i a r)).color = .black)
    (ends : delete path c l i r = some (t, slip)) : t.color = .black := by
  cases l with
  | nil =>
    have spliced : splice c r path = some (t, slip) := by cases r <;> exact ends
    exact splice_color black spliced
  | node lc ll li la lr =>
    cases r with
    | nil => exact splice_color black ends
    | node rc rl ri ra rr =>
      rcases found : leftmost rc rl ri ra rr [] with ⟨yc, yi, ya, yr, sub⟩
      have same := leftmost_fill _ _ _ _ _ _ found
      simp only [delete, found] at ends
      refine splice_color (l := .nil) (i := yi) (a := ya) (r := yr) ?_ ends
      rw [fill_append, same]
      cases path with
      | nil => exact black
      | cons f path => exact (Path.color_fill f path _ _).trans black

/-- On the way down to the least node the path goes left only, so nothing slips. -/
theorem deleteFixup_left (path : Path ι α) {x t : Tree ι α} {slip : Bool}
    (left : ∀ f ∈ path, f.dir = .left) (ends : deleteFixup x path = some (t, slip)) :
    slip = false := by
  induction path generalizing x with
  | nil =>
    cases ends
    rfl
  | cons f path ih =>
    have here : f.dir = .left := left f (by simp)
    unfold deleteFixup at ends
    split at ends
    · cases ends
      rfl
    · split at ends
      · split at ends <;> cases ends
        · rfl
        · simp [here]
      · split at ends
        · cases ends
        · exact ih (fun g member => left g (by simp [member])) ends
        · cases ends
          simp [here]

theorem delete_least {path : Path ι α} {c : Color} {r t : Tree ι α} {i : ι} {slip : Bool}
    (left : ∀ f ∈ path, f.dir = .left) (ends : delete path c .nil i r = some (t, slip)) :
    slip = false := by
  have spliced : splice c r path = some (t, slip) := by cases r <;> exact ends
  unfold splice at spliced
  split at spliced
  · exact deleteFixup_left path left spliced
  · cases spliced
    rfl

end RedBlack
