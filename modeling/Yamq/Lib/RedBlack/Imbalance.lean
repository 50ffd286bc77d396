import Yamq.Lib.RedBlack.Rebalance

/-! When a deletion keeps the balance. The last case on the right side always spoils it, and whether
the repair ends there can be read off the tree before the deletion. -/
namespace RedBlack

variable {ι α : Type}

/-- Both children of a sibling are black, so that the repair paints it red. -/
def Tree.blackChildren : Tree ι α → Bool
  | .nil => false
  | .node _ l _ _ r => l.color = .black && r.color = .black

/-- The repair at a place below `path` that holds a tree with a root of this colour does not end in
the last case on the right side. -/
def mendable : Color → Path ι α → Bool
  | _, [] => true
  | .red, _ :: _ => true
  | .black, f :: path =>
    match f.sib with
    | .node .red wl _ _ wr => (f.dir.pick wl wr).blackChildren || f.dir = .left
    | w => if w.blackChildren then mendable f.color path else f.dir = .left

/-- The same for the removal of a node of colour `c` with at most one child, which is `x`. -/
def spliceMendable (c : Color) (x : Tree ι α) (path : Path ι α) : Bool :=
  c = .red || mendable x.color path

/-- The same for a deletion. With two children the successor goes. -/
def deleteMendable (path : Path ι α) (c : Color) (l : Tree ι α) (i : ι) (r : Tree ι α) : Bool :=
  match l, r with
  | .node _ _ _ _ _, .node rc rl ri ra rr =>
    let (yc, _, ya, yr, sub) := leftmost rc rl ri ra rr []
    spliceMendable yc yr (sub ++ ⟨.right, c, i, ya, l⟩ :: path)
  | .nil, r => spliceMendable c r path
  | l, .nil => spliceMendable c l path

section
variable {d : Dir} {x w u t : Tree ι α} {c : Color} {i : ι} {a : α} {path : Path ι α} {n : Nat}

theorem fixAt_up_black (ends : fixAt d x c i a w = some (.up u)) :
    w.blackChildren = true ∧ u.color = c := by
  obtain ⟨wc, wl, wi, wa, wr, rfl, ⟨hl, hr, same⟩ | ⟨_, _, _, _, _, _, _, _, other⟩ | ⟨_, other⟩⟩ :=
    fixAt_cases ends
  · cases same
    exact ⟨by simp [Tree.blackChildren, hl, hr], Tree.color_join ..⟩
  · cases other
  · cases other

theorem fixAt_done_red (ends : fixAt d x c i a w = some (.done u)) : w.blackChildren = false := by
  obtain ⟨wc, wl, wi, wa, wr, rfl, ⟨_, _, other⟩ | ⟨nc, nl, ni, na, nr, near, rfl, _, _⟩ | ⟨far, _⟩⟩ :=
    fixAt_cases ends
  · cases other
  · cases d <;> cases near <;> simp [Tree.blackChildren]
  · cases d
    · have right : wr.color = .red := far
      simp [Tree.blackChildren, right]
    · have left : wl.color = .red := far
      simp [Tree.blackChildren, left]

/-- The mark of a repair is what could be read off before. -/
theorem deleteFixup_mendable (path : Path ι α) {x : Tree ι α} {slip : Bool}
    (ends : deleteFixup x path = some (t, slip)) : slip = !mendable x.color path := by
  induction path generalizing x with
  | nil =>
    cases ends
    cases x.color <;> rfl
  | cons f path ih =>
    unfold deleteFixup at ends
    split at ends
    · rename_i red
      cases ends
      rw [red]
      rfl
    · rename_i notRed
      rw [Color.black_of_ne_red notRed]
      split at ends
      · rename_i sib
        rw [mendable, sib]
        dsimp only
        split at ends
        · cases ends
        · rename_i fixed
          cases ends
          rw [(fixAt_up_black fixed).1]
          rfl
        · rename_i fixed
          cases ends
          rw [fixAt_done_red fixed]
          cases f.dir <;> rfl
      · rename_i other
        rw [mendable]
        split
        · rename_i sib
          exact absurd sib (other _ _ _ _)
        · split at ends
          · cases ends
          · rename_i fixed
            obtain ⟨blacks, color⟩ := fixAt_up_black fixed
            rw [if_pos blacks, ih ends, color]
          · rename_i fixed
            cases ends
            rw [fixAt_done_red fixed]
            cases f.dir <;> rfl

theorem splice_mendable {slip : Bool} (ends : splice c x path = some (t, slip)) :
    slip = !spliceMendable c x path := by
  unfold splice at ends
  split at ends
  · rename_i black
    rw [deleteFixup_mendable path ends, spliceMendable, black]
    rfl
  · rename_i red
    cases ends
    rw [Color.red_of_ne_black red]
    rfl

theorem delete_mendable {l r : Tree ι α} {slip : Bool} (ends : delete path c l i r = some (t, slip)) :
    slip = !deleteMendable path c l i r := by
  cases l with
  | nil =>
    have spliced : splice c r path = some (t, slip) := by cases r <;> exact ends
    have same : deleteMendable path c .nil i r = spliceMendable c r path := by cases r <;> rfl
    rw [same]
    exact splice_mendable spliced
  | node lc ll li la lr =>
    cases r with
    | nil => exact splice_mendable ends
    | node rc rl ri ra rr => exact splice_mendable ends

end

/-! The last case on the right side. -/

section
variable {d : Dir} {x w u t : Tree ι α} {c : Color} {i : ι} {a : α} {path : Path ι α} {n m : Nat}

theorem Balanced.unique (h : Balanced t n) (h' : Balanced t m) : n = m := by
  induction h generalizing m with
  | nil =>
    cases h'
    rfl
  | red _ _ _ _ ihl _ =>
    cases h' with
    | red _ _ bl _ => exact ihl bl
  | black _ _ ihl _ =>
    cases h' with
    | black bl _ => rw [ihl bl]

theorem balanced_join (h : Balanced (.join d c t i a w) n) : ∃ m, Balanced t m ∧ Balanced w m := by
  cases c with
  | red =>
    obtain ⟨_, _, bt, bw⟩ := balanced_join_red.mp h
    exact ⟨n, bt, bw⟩
  | black =>
    obtain ⟨m, rfl⟩ := h.height_pos
    obtain ⟨bt, bw⟩ := balanced_join_black.mp h
    exact ⟨m, bt, bw⟩

/-- A tree is balanced only if the subtree at a place is, up to the colour of its root. -/
theorem balanced_fill (h : Balanced ((Path.fill path t).paint c) n) :
    ∃ c' m, Balanced (t.paint c') m := by
  induction path generalizing t with
  | nil => exact ⟨c, n, h⟩
  | cons f path ih =>
    obtain ⟨c', m, plugged⟩ := ih h
    rw [Frame.plug, Tree.paint_join] at plugged
    obtain ⟨k, bt, _⟩ := balanced_join plugged
    exact ⟨t.color, k, by rwa [Tree.paint_color]⟩

/-- The far child of the sibling stays red, so that the side of the place gets one black node more. -/
theorem settle_right {near far : Tree ι α} {wi : ι} {wa : α} {c' : Color}
    (h : Balanced ((settle .right c x i a near wi wa far).paint c') m) :
    ∃ k, Balanced x k ∧ Balanced far (k + 1) := by
  rw [settle, Tree.paint_join] at h
  obtain ⟨k, inner, bf⟩ := balanced_join h
  obtain ⟨j, rfl⟩ := inner.height_pos
  exact ⟨j, (balanced_join_black.mp inner).1, bf⟩

theorem fixAt_right {wl wr : Tree ι α} {wi : ι} {wa : α} {c' : Color} (bx : Balanced x n)
    (bl : Balanced wl n) (ends : fixAt .right x c i a (.node .black wl wi wa wr) = some (.done u)) :
    ¬ Balanced (u.paint c') m := by
  intro h
  obtain ⟨_, _, _, _, _, shape, ⟨_, _, other⟩ | ⟨nc, nl, ni, na, nr, _, _, _, same⟩ | ⟨_, same⟩⟩ :=
    fixAt_cases ends
  · cases other
  · cases shape
    cases same
    obtain ⟨k, bx', far⟩ := settle_right h
    obtain ⟨_, _, _, far⟩ := balanced_join_red.mp far
    have same := bx.unique bx'
    have other := bl.unique far
    omega
  · cases shape
    cases same
    obtain ⟨k, bx', far⟩ := settle_right h
    have same := bx.unique bx'
    have other := bl.unique far
    omega

end

/-- A repair that ends in the last case on the right side leaves unequal black heights. -/
theorem deleteFixup_spoils (path : Path ι α) {x t : Tree ι α} {n m : Nat} (fits : Fits path (n + 1))
    (lacks : Deficient x n) (ends : deleteFixup x path = some (t, true)) : ¬ Balanced t m := by
  induction path generalizing x n with
  | nil => cases ends
  | cons f path ih =>
    rcases lacks with ⟨red, _⟩ | ⟨black, bx⟩
    · rw [deleteFixup, if_pos red] at ends
      cases ends
    have notRed : x.color ≠ .red := by
      rw [black]
      decide
    rw [deleteFixup, if_neg notRed] at ends
    have sibling := fits.sibling
    split at ends
    · rename_i wl wi wa wr sib
      rw [sib] at sibling
      cases sibling with
      | red hl hr bl br =>
        split at ends
        · cases ends
        · cases ends
        · rename_i u fixed
          obtain ⟨rfl, right⟩ := Prod.mk.inj (Option.some.inj ends)
          rw [of_decide_eq_true right] at fixed
          intro balanced
          obtain ⟨c, k, bu⟩ := balanced_fill balanced
          cases br with
          | red => cases hr
          | black bll _ => exact fixAt_right bx bll fixed bu
    · rename_i other
      split at ends
      · cases ends
      · rename_i u fixed
        have good := fixAt_repaired bx sibling (color_sibling other) fixed
        obtain ⟨k, rest, lacks⟩ := fits.climb good
        exact ih rest lacks ends
      · rename_i u fixed
        obtain ⟨rfl, right⟩ := Prod.mk.inj (Option.some.inj ends)
        rw [of_decide_eq_true right] at fixed
        intro balanced
        obtain ⟨c, k, bu⟩ := balanced_fill balanced
        cases shape : f.sib with
        | nil =>
          rw [shape] at fixed
          cases fixed
        | node c l i a r =>
          rw [shape] at fixed sibling
          cases sibling with
          | red => exact other _ _ _ _ shape
          | black bl _ => exact fixAt_right bx bl fixed bu

/-- Deletion keeps a tree valid exactly when its repair does not end in the faulty case. -/
theorem delete_valid_iff {path : Path ι α} {c : Color} {l r : Tree ι α} {i : ι} {a : α}
    (valid : Valid (Path.fill path (.node c l i a r))) : ∃ t slip,
      delete path c l i r = some (t, slip) ∧ (Valid t ↔ deleteMendable path c l i r = true) := by
  obtain ⟨t, slip, ends, good⟩ := delete_spec valid
  have mark := delete_mendable ends
  refine ⟨t, slip, ends, ?_⟩
  cases slip with
  | false => exact iff_of_true (good rfl) (by simpa using mark)
  | true =>
    refine iff_of_false (fun ⟨_, m, balanced⟩ => ?_) (by simpa using mark)
    obtain ⟨c', x, sub, _, _, _, _, same, before, one⟩ := delete_splice valid
    rw [same, splice] at ends
    split at ends
    · rename_i black
      rw [black] at before
      obtain ⟨n, fits, lacks⟩ := splice_lacks before one
      exact deleteFixup_spoils sub fits lacks ends balanced
    · cases ends

end RedBlack
