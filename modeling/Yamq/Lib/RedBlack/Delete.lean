import Yamq.Lib.RedBlack.Insert

/-! Deletion from below, in the variant whose last case paints the right child of the sibling on both
sides. On the left side that is the usual algorithm. On the right side it leaves the left child of
the sibling as it is, and the result carries a mark that this case was taken. -/
namespace RedBlack

variable {ι α : Type}

/-- How the cases for a black sibling end: the repair goes on above, or it is over. -/
inductive Outcome (ι α : Type) where
  | up (t : Tree ι α)
  | done (t : Tree ι α)

/-- The last case: the sibling, with children `near` and `far`, goes on top. -/
def settle (d : Dir) (c : Color) (x : Tree ι α) (i : ι) (a : α) (near : Tree ι α) (wi : ι) (wa : α)
    (far : Tree ι α) : Tree ι α :=
  match d with
  | .left => .join d c (.join d .black x i a near) wi wa (far.paint .black)
  | .right => .join d c (.join d .black x i a (near.paint .black)) wi wa far

/-- The cases for a black sibling `w` of `x`, below a node of colour `c`. -/
def fixAt (d : Dir) (x : Tree ι α) (c : Color) (i : ι) (a : α) : Tree ι α → Option (Outcome ι α)
  | .nil => none
  | .node _ wl wi wa wr =>
    if wl.color = .black ∧ wr.color = .black then
      some (.up (.join d c x i a (.node .red wl wi wa wr)))
    else if (d.pick wr wl).color = .black then
      match d.pick wl wr with
      | .nil => none
      | .node _ nl ni na nr => some (.done (settle d c x i a (d.pick nl nr) ni na
          (.join d .red (d.pick nr nl) wi wa (d.pick wr wl))))
    else some (.done (settle d c x i a (d.pick wl wr) wi wa (d.pick wr wl)))

/-- The repair at a place that lacks one black node. -/
def deleteFixup (x : Tree ι α) : Path ι α → Option (Tree ι α × Bool)
  | [] => some (x.paint .black, false)
  | f :: path =>
    if x.color = .red then some (Path.fill (f :: path) (x.paint .black), false)
    else match f.sib with
      | .node .red wl wi wa wr =>
        -- a red sibling goes on top, and its near child is the sibling now
        let up : Path ι α := ⟨f.dir, .black, wi, wa, f.dir.pick wr wl⟩ :: path
        match fixAt f.dir x .red f.id f.val (f.dir.pick wl wr) with
        | none => none
        | some (.up t) => some (Path.fill up (t.paint .black), false)
        | some (.done t) => some ((Path.fill up t).paint .black, f.dir = .right)
      | w =>
        match fixAt f.dir x f.color f.id f.val w with
        | none => none
        | some (.up t) => deleteFixup t path
        | some (.done t) => some ((Path.fill path t).paint .black, f.dir = .right)

/-- A node with at most one child gives its place to that child. -/
def splice (c : Color) (x : Tree ι α) (path : Path ι α) : Option (Tree ι α × Bool) :=
  if c = .black then deleteFixup x path else some (Path.fill path x, false)

/-- The leftmost node of a tree: its colour, identity and contents, its right subtree, its path. -/
def leftmost (c : Color) : Tree ι α → ι → α → Tree ι α → Path ι α → Color × ι × α × Tree ι α × Path ι α
  | .nil, i, a, r, path => (c, i, a, r, path)
  | .node c' l' i' a' r', i, a, r, path => leftmost c' l' i' a' r' (⟨.left, c, i, a, r⟩ :: path)

/-- Deletion of the node at a place. With two children the node takes the contents of its successor,
and the successor goes. -/
def delete (path : Path ι α) (c : Color) (l : Tree ι α) (i : ι) (r : Tree ι α) :
    Option (Tree ι α × Bool) :=
  match l, r with
  | .node _ _ _ _ _, .node rc rl ri ra rr =>
    let (yc, _, ya, yr, sub) := leftmost rc rl ri ra rr []
    splice yc yr (sub ++ ⟨.right, c, i, ya, l⟩ :: path)
  | .nil, r => splice c r path
  | l, .nil => splice c l path

/-! What stands in order after a deletion. -/

theorem settle_toList (d : Dir) (c : Color) (x : Tree ι α) (i : ι) (a : α) (near : Tree ι α) (wi : ι)
    (wa : α) (far : Tree ι α) : (settle d c x i a near wi wa far).toList =
      (Tree.join d c x i a (.join d .black near wi wa far)).toList := by
  cases d <;> simp [settle, Tree.join]

/-- The three ways in which the cases for a black sibling end. -/
theorem fixAt_cases {d : Dir} {x w : Tree ι α} {c : Color} {i : ι} {a : α} {o : Outcome ι α}
    (ends : fixAt d x c i a w = some o) : ∃ wc wl wi wa wr, w = .node wc wl wi wa wr ∧
      (wl.color = .black ∧ wr.color = .black ∧
          o = .up (.join d c x i a (.node .red wl wi wa wr)) ∨
        (∃ nc nl ni na nr, d.pick wl wr = .node nc nl ni na nr ∧ nc = .red ∧
          (d.pick wr wl).color = .black ∧
          o = .done (settle d c x i a (d.pick nl nr) ni na
            (.join d .red (d.pick nr nl) wi wa (d.pick wr wl)))) ∨
        (d.pick wr wl).color = .red ∧
          o = .done (settle d c x i a (d.pick wl wr) wi wa (d.pick wr wl))) := by
  cases w with
  | nil => cases ends
  | node wc wl wi wa wr =>
    refine ⟨wc, wl, wi, wa, wr, rfl, ?_⟩
    simp only [fixAt] at ends
    split at ends
    · rename_i blacks
      exact .inl ⟨blacks.1, blacks.2, (Option.some.inj ends).symm⟩
    · rename_i someRed
      split at ends
      · rename_i far
        split at ends
        · cases ends
        · rename_i nc nl ni na nr near
          refine .inr (.inl ⟨nc, nl, ni, na, nr, near, ?_, far, (Option.some.inj ends).symm⟩)
          cases nc with
          | red => rfl
          | black => cases d <;> cases near <;> simp_all [Dir.pick]
      · rename_i far
        refine .inr (.inr ⟨?_, (Option.some.inj ends).symm⟩)
        cases h : (d.pick wr wl).color with
        | red => rfl
        | black => exact absurd h far

/-- A sibling that is there has what the cases look at. -/
theorem fixAt_node (d : Dir) (x : Tree ι α) (c : Color) (i : ι) (a : α) (wc : Color) (wl : Tree ι α)
    (wi : ι) (wa : α) (wr : Tree ι α) : ∃ o, fixAt d x c i a (.node wc wl wi wa wr) = some o := by
  simp only [fixAt]
  split
  · exact ⟨_, rfl⟩
  · rename_i someRed
    split
    · split
      · rename_i near
        exact absurd (by cases d <;> simp_all [Dir.pick, Tree.color]) someRed
      · exact ⟨_, rfl⟩
    · exact ⟨_, rfl⟩

theorem fixAt_up {d : Dir} {x w u : Tree ι α} {c : Color} {i : ι} {a : α}
    (ends : fixAt d x c i a w = some (.up u)) : ∃ w', u = .join d c x i a w' := by
  obtain ⟨wc, wl, wi, wa, wr, _, ⟨_, _, same⟩ | ⟨_, _, _, _, _, _, _, _, other⟩ | ⟨_, other⟩⟩ :=
    fixAt_cases ends
  · exact ⟨_, Outcome.up.inj same⟩
  · cases other
  · cases other

def Outcome.tree : Outcome ι α → Tree ι α
  | .up t => t
  | .done t => t

theorem fixAt_toList {d : Dir} {x w : Tree ι α} {c : Color} {i : ι} {a : α} {o : Outcome ι α}
    (ends : fixAt d x c i a w = some o) : o.tree.toList = (Tree.join d c x i a w).toList := by
  obtain ⟨wc, wl, wi, wa, wr, rfl, ⟨_, _, rfl⟩ | ⟨nc, nl, ni, na, nr, near, _, _, rfl⟩ | ⟨_, rfl⟩⟩ :=
    fixAt_cases ends
  · cases d <;> simp [Outcome.tree, Tree.join]
  · rw [Outcome.tree, settle_toList]
    cases d <;> cases near <;> simp [Tree.join, Dir.pick]
  · rw [Outcome.tree, settle_toList]
    cases d <;> simp [Tree.join, Dir.pick]

theorem deleteFixup_toList (path : Path ι α) {x t : Tree ι α} {slip : Bool}
    (ends : deleteFixup x path = some (t, slip)) : t.toList = (Path.fill path x).toList := by
  induction path generalizing x with
  | nil =>
    cases ends
    simp
  | cons f path ih =>
    unfold deleteFixup at ends
    split at ends
    · cases ends
      simp only [Path.toList_fill, Tree.toList_paint]
    · split at ends
      · rename_i wl wi wa wr sib
        have rotated (t : Tree ι α)
            (same : t.toList = (Tree.join f.dir .red x f.id f.val (f.dir.pick wl wr)).toList) :
            (Path.fill (⟨f.dir, .black, wi, wa, f.dir.pick wr wl⟩ :: path) t).toList =
              (Path.fill (f :: path) x).toList := by
          obtain ⟨d, c, i, a, s⟩ := f
          cases sib
          simp only [Path.fill_cons, Path.toList_fill, Frame.toList_plug, same]
          cases d <;> simp [Frame.before, Frame.after, Tree.join, Dir.pick]
        split at ends
        · cases ends
        · rename_i u fixed
          cases ends
          apply rotated
          rw [Tree.toList_paint]
          exact fixAt_toList fixed
        · rename_i u fixed
          cases ends
          rw [Tree.toList_paint]
          exact rotated u (fixAt_toList fixed)
      · split at ends
        · cases ends
        · rename_i u fixed
          have same : u.toList = (f.plug x).toList := fixAt_toList fixed
          rw [ih ends, Path.fill_cons, Path.toList_fill, Path.toList_fill, same]
        · rename_i u fixed
          cases ends
          have same : u.toList = (f.plug x).toList := fixAt_toList fixed
          rw [Tree.toList_paint, Path.fill_cons, Path.toList_fill, Path.toList_fill, same]

theorem splice_toList {path : Path ι α} {c : Color} {x t : Tree ι α} {slip : Bool}
    (ends : splice c x path = some (t, slip)) : t.toList = (Path.fill path x).toList := by
  unfold splice at ends
  split at ends
  · exact deleteFixup_toList path ends
  · cases ends
    rfl

theorem fill_append (front back : Path ι α) (t : Tree ι α) :
    Path.fill (front ++ back) t = Path.fill back (Path.fill front t) := by
  induction front generalizing t with
  | nil => rfl
  | cons f front ih => exact ih _

theorem leftmost_fill (c : Color) (l : Tree ι α) (i : ι) (a : α) (r : Tree ι α) (path : Path ι α)
    {yc : Color} {yi : ι} {ya : α} {yr : Tree ι α} {sub : Path ι α}
    (found : leftmost c l i a r path = (yc, yi, ya, yr, sub)) :
    Path.fill sub (.node yc .nil yi ya yr) = Path.fill path (.node c l i a r) := by
  induction l generalizing c i a r path with
  | nil =>
    cases found
    rfl
  | node c' l' i' a' r' ih _ => exact ih _ _ _ _ _ found

theorem leftmost_left (c : Color) (l : Tree ι α) (i : ι) (a : α) (r : Tree ι α) (path : Path ι α)
    {yc : Color} {yi : ι} {ya : α} {yr : Tree ι α} {sub : Path ι α}
    (found : leftmost c l i a r path = (yc, yi, ya, yr, sub)) :
    ∃ front, sub = front ++ path ∧ ∀ f ∈ front, f.dir = .left := by
  induction l generalizing c i a r path with
  | nil =>
    cases found
    exact ⟨[], rfl, by simp⟩
  | node c' l' i' a' r' ih _ =>
    obtain ⟨front, rfl, left⟩ := ih _ _ _ _ _ found
    refine ⟨front ++ [⟨.left, c, i, a, r⟩], by simp, ?_⟩
    intro f member
    rcases List.mem_append.mp member with deep | last
    · exact left f deep
    · rw [List.mem_singleton.mp last]

theorem before_left {front : Path ι α} (left : ∀ f ∈ front, f.dir = .left) :
    Path.before front = [] := by
  induction front with
  | nil => rfl
  | cons f front ih =>
    have here := left f (by simp)
    rw [Path.before_cons, ih fun g member => left g (by simp [member]), Frame.before, here]
    rfl

/-- Deleting a node with at most one child takes that node out of the list and nothing else. -/
theorem delete_toList_one {path : Path ι α} {c : Color} {l r t : Tree ι α} {i : ι} {slip : Bool}
    (one : l = .nil ∨ r = .nil) (ends : delete path c l i r = some (t, slip)) :
    t.toList = Path.before path ++ (l.toList ++ r.toList) ++ Path.after path := by
  have spliced : ∃ x, splice c x path = some (t, slip) ∧ x.toList = l.toList ++ r.toList := by
    cases l with
    | nil => exact ⟨r, by cases r <;> exact ends, by simp⟩
    | node lc ll li la lr =>
      cases r with
      | nil => exact ⟨_, ends, by simp⟩
      | node => rcases one with wrong | wrong <;> cases wrong
  obtain ⟨x, ends, whole⟩ := spliced
  rw [splice_toList ends, Path.toList_fill, whole]

/-- Deleting a node with two children keeps its identity, now with the contents of its successor,
and takes out the identity of the successor. -/
theorem delete_toList_two {path : Path ι α} {c : Color} {l r t : Tree ι α} {i : ι} {slip : Bool}
    (left : l ≠ .nil) (right : r ≠ .nil) (ends : delete path c l i r = some (t, slip)) :
    ∃ y rest, r.toList = y :: rest ∧
      t.toList = Path.before path ++ (l.toList ++ (i, y.2) :: rest) ++ Path.after path := by
  cases l with
  | nil => exact absurd rfl left
  | node lc ll li la lr =>
    cases r with
    | nil => exact absurd rfl right
    | node rc rl ri ra rr =>
      rcases found : leftmost rc rl ri ra rr [] with ⟨yc, yi, ya, yr, sub⟩
      have whole := congrArg Tree.toList (leftmost_fill _ _ _ _ _ _ found)
      obtain ⟨front, same, onLeft⟩ := leftmost_left _ _ _ _ _ _ found
      rw [List.append_nil] at same
      subst same
      have none := before_left onLeft
      simp only [delete, found] at ends
      simp only [Path.toList_fill, none, List.nil_append, Path.fill_nil] at whole
      refine ⟨(yi, ya), yr.toList ++ Path.after sub, whole.symm, ?_⟩
      rw [splice_toList ends, fill_append, Path.fill_cons, Path.toList_fill, Frame.toList_plug,
        Path.toList_fill, none]
      simp [Frame.before, Frame.after]

/-- A deletion leaves a sublist of the keys. -/
theorem delete_ordered {κ : Type} [LinearOrder κ] {key : α → κ} {path : Path ι α} {c : Color}
    {l r t : Tree ι α} {i : ι} {a : α} {slip : Bool}
    (ordered : Ordered key (Path.fill path (.node c l i a r)))
    (ends : delete path c l i r = some (t, slip)) : Ordered key t := by
  have whole : (Path.fill path (.node c l i a r)).toList =
      (Path.before path ++ l.toList) ++ (i, a) :: (r.toList ++ Path.after path) := by
    simp [Path.toList_fill]
  have sub : (keys key t.toList).Sublist (keys key (Path.before path ++ l.toList) ++
      key a :: keys key (r.toList ++ Path.after path)) := by
    by_cases one : l = .nil ∨ r = .nil
    · have left : t.toList = (Path.before path ++ l.toList) ++ (r.toList ++ Path.after path) := by
        rw [delete_toList_one one ends]
        simp
      rw [left, keys_append]
      exact .append (.refl _) (.cons _ (.refl _))
    · rw [not_or] at one
      obtain ⟨y, rest, some_, left⟩ := delete_toList_two one.1 one.2 ends
      have left : t.toList = (Path.before path ++ l.toList) ++ (i, y.2) :: (rest ++ Path.after path) := by
        rw [left]
        simp
      rw [left, some_, keys_append, keys_cons, List.cons_append, keys_cons]
      exact .append (.refl _) (.cons _ (.refl _))
  rw [Ordered, whole, keys_append, keys_cons] at ordered
  exact ordered.sublist sub

end RedBlack
