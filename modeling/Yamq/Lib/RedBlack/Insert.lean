import Yamq.Lib.RedBlack.Balance
import Mathlib.Order.Lattice

/-! Insertion from below: the place of a key, and the repair that walks back to the root. -/
namespace RedBlack

variable {ι α : Type}

/-- The two rotations that end the repair. `g` is the black frame above the red frame `p`. -/
def turn (g p : Frame ι α) (n : Tree ι α) : Tree ι α :=
  let d := g.dir
  if p.dir = d then .join d .black n p.id p.val (.join d .red p.sib g.id g.val g.sib)
  else match n with
    | .nil => .nil
    | .node _ l i a r =>
      .join d .black (.join d .red p.sib p.id p.val (d.pick l r)) i a
        (.join d .red (d.pick r l) g.id g.val g.sib)

theorem turn_outer {g p : Frame ι α} (same : p.dir = g.dir) (n : Tree ι α) :
    turn g p n = .join g.dir .black n p.id p.val (.join g.dir .red p.sib g.id g.val g.sib) :=
  if_pos same

theorem turn_inner {g p : Frame ι α} (turned : p.dir ≠ g.dir) (c : Color) (l : Tree ι α) (i : ι)
    (a : α) (r : Tree ι α) : turn g p (.node c l i a r) =
      .join g.dir .black (.join g.dir .red p.sib p.id p.val (g.dir.pick l r)) i a
        (.join g.dir .red (g.dir.pick r l) g.id g.val g.sib) :=
  if_neg turned

/-- The repair above a red node `n` whose parent may be red. -/
def insertFixup (n : Tree ι α) : Path ι α → Tree ι α
  | [] => n.paint .black
  | [p] => (p.plug n).paint .black
  | p :: g :: path =>
    if p.color = .black then (Path.fill path (g.plug (p.plug n))).paint .black
    else if g.sib.color = .red then
      insertFixup (.join g.dir .red ((p.plug n).paint .black) g.id g.val (g.sib.paint .black)) path
    else (Path.fill path (turn g p n)).paint .black

theorem insertFixup_color (path : Path ι α) (n : Tree ι α) : (insertFixup n path).color = .black := by
  fun_induction insertFixup n path with
  | case1 n => exact color_paint_black n
  | case2 n p => exact color_paint_black _
  | case3 n p g path black => exact color_paint_black _
  | case4 n p g path red uncle ih => exact ih
  | case5 n p g path red uncle => exact color_paint_black _

theorem turn_toList {g p : Frame ι α} {n : Tree ι α} (some_ : n ≠ .nil) :
    (turn g p n).toList = (g.plug (p.plug n)).toList := by
  obtain ⟨dg, cg, ig, ag, sg⟩ := g
  obtain ⟨dp, cp, ip, ap, sp⟩ := p
  cases n with
  | nil => exact absurd rfl some_
  | node c l i a r => cases dg <;> cases dp <;> simp [turn, Frame.plug, Tree.join, Dir.pick]

theorem insertFixup_toList (path : Path ι α) {n : Tree ι α} (some_ : n ≠ .nil) :
    (insertFixup n path).toList = (Path.fill path n).toList := by
  fun_induction insertFixup n path with
  | case1 n => simp
  | case2 n p => simp
  | case3 n p g path black => simp
  | case4 n p g path red uncle ih =>
    rw [ih Tree.join_ne_nil, Path.toList_fill, Path.fill_cons, Path.fill_cons, Path.toList_fill]
    congr 2
    obtain ⟨dg, cg, ig, ag, sg⟩ := g
    cases dg <;> simp [Frame.plug, Tree.join]
  | case5 n p g path red uncle =>
    simp only [Tree.toList_paint, Path.toList_fill, turn_toList some_, Path.fill_cons]

/-- The repair restores the invariants that a red node put in place may break. -/
theorem insertFixup_valid (path : Path ι α) {n : Tree ι α} {k : Nat} (red : n.color = .red)
    (balanced : Balanced n k) (fits : Fits path k) : Valid (insertFixup n path) := by
  fun_induction insertFixup n path generalizing k with
  | case1 n => exact ⟨by cases n <;> rfl, k + 1, balanced.paint_black red⟩
  | case2 n p =>
    cases fits with
    | red _ head => cases head
    | black color sib _ =>
      refine ⟨by simp [Frame.plug], k + 1, ?_⟩
      rw [Frame.plug, Tree.paint_join, balanced_join_black]
      exact ⟨balanced, sib⟩
  | case3 n p g path black =>
    have whole : Valid (Path.fill (p :: g :: path) n) :=
      fill_valid fits balanced (.inl (by simp [Path.above, black]))
    rw [← Path.fill_cons, ← Path.fill_cons, whole.paint]
    exact whole
  | case4 n p g path notBlack uncle ih =>
    cases fits with
    | black color => exact absurd color notBlack
    | red color head sib bs fits =>
      cases fits with
      | red wrong => simp [Path.above, wrong] at head
      | black _ bg fits =>
        apply ih (by simp) _ fits
        rw [balanced_join_red, Frame.plug, Tree.paint_join, Tree.color_join, balanced_join_black]
        refine ⟨rfl, ?_, ⟨balanced, bs⟩, bg.paint_black uncle⟩
        cases g.sib <;> rfl
  | case5 n p g path notBlack uncle =>
    cases fits with
    | black color => exact absurd color notBlack
    | red color head sib bs fits =>
      cases fits with
      | red wrong => simp [Path.above, wrong] at head
      | black _ bg fits =>
        have black := Color.black_of_ne_red uncle
        have done : Balanced (turn g p n) (k + 1) ∧ (turn g p n).color = .black := by
          cases balanced with
          | nil => cases red
          | black => cases red
          | @red l r i a _ hl hr bl br =>
            by_cases same : p.dir = g.dir
            · rw [turn_outer same, balanced_join_black, balanced_join_red]
              exact ⟨⟨.red hl hr bl br, sib, black, bs, bg⟩, Tree.color_join ..⟩
            · rw [turn_inner same, balanced_join_black, balanced_join_red, balanced_join_red]
              refine ⟨⟨⟨sib, ?_, bs, ?_⟩, ?_, black, ?_, bg⟩, Tree.color_join ..⟩ <;>
                cases g.dir <;> assumption
        have whole := fill_valid fits done.1 (.inr done.2)
        rw [whole.paint]
        exact whole

section
variable {κ : Type} {key : α → κ}

def keys (key : α → κ) (l : List (ι × α)) : List κ := l.map fun e => key e.2

@[simp] theorem keys_nil : keys key ([] : List (ι × α)) = [] := rfl

@[simp] theorem keys_cons (e : ι × α) (l : List (ι × α)) : keys key (e :: l) = key e.2 :: keys key l :=
  rfl

@[simp] theorem keys_append (l l' : List (ι × α)) : keys key (l ++ l') = keys key l ++ keys key l' :=
  List.map_append

variable [LinearOrder κ] (key)

/-- The empty place at which a key belongs, or `none` when a node has the key. -/
def locate (k : κ) : Tree ι α → Path ι α → Option (Path ι α)
  | .nil, path => some path
  | .node c l i a r, path =>
    if k < key a then locate k l (⟨.left, c, i, a, r⟩ :: path)
    else if key a < k then locate k r (⟨.right, c, i, a, l⟩ :: path)
    else none

/-- Insertion of a new node, `none` when the key is there. -/
def insert (i : ι) (a : α) (t : Tree ι α) : Option (Tree ι α) :=
  (locate key (key a) t []).map (insertFixup (.node .red .nil i a .nil))

variable {key}

theorem locate_fill {k : κ} {t : Tree ι α} {path place : Path ι α}
    (found : locate key k t path = some place) : Path.fill place .nil = Path.fill path t := by
  induction t generalizing path with
  | nil =>
    cases found
    rfl
  | node c l i a r ihl ihr =>
    unfold locate at found
    split at found
    · exact ihl found
    · split at found
      · exact ihr found
      · cases found

/-- Strictly ordered keys. -/
def Ordered (key : α → κ) (t : Tree ι α) : Prop := (keys key t.toList).Pairwise (· < ·)

instance (t : Tree ι α) : Decidable (Ordered key t) :=
  inferInstanceAs (Decidable (List.Pairwise (· < ·) (keys key t.toList)))

/-- In an ordered tree the place of a key has the smaller keys before it and the larger behind. -/
theorem locate_between {k : κ} {t : Tree ι α} {path place : Path ι α}
    (ordered : Ordered key (Path.fill path t)) (low : ∀ x ∈ keys key (Path.before path), x < k)
    (high : ∀ x ∈ keys key (Path.after path), k < x) (found : locate key k t path = some place) :
    (∀ x ∈ keys key (Path.before place), x < k) ∧ ∀ x ∈ keys key (Path.after place), k < x := by
  induction t generalizing path with
  | nil =>
    cases found
    exact ⟨low, high⟩
  | node c l i a r ihl ihr =>
    have sorted := ordered
    rw [Ordered, Path.toList_fill] at sorted
    simp only [keys_append, Tree.toList_node, keys_cons, List.pairwise_append, List.pairwise_cons,
      List.mem_append, List.mem_cons] at sorted
    unfold locate at found
    split at found
    · rename_i less
      refine ihl ordered ?_ ?_ found
      · simpa [Frame.before] using low
      · intro x member
        simp only [Path.after_cons, Frame.after, keys_append, keys_cons, List.mem_append,
          List.mem_cons] at member
        rcases member with (rfl | right) | after
        · exact less
        · exact lt_trans less (sorted.1.2.1.2.1.1 x right)
        · exact high x after
    · split at found
      · rename_i more
        refine ihr ordered ?_ ?_ found
        · intro x member
          simp only [Path.before_cons, Frame.before, keys_append, keys_cons, keys_nil,
            List.mem_append, List.mem_singleton] at member
          rcases member with before | left | rfl
          · exact low x before
          · exact lt_trans (sorted.1.2.1.2.2 x left _ (.inl rfl)) more
          · exact more
        · simpa [Frame.after] using high
      · cases found

theorem locate_none {k : κ} {t : Tree ι α} {path : Path ι α} (ordered : Ordered key t) :
    locate key k t path = none ↔ k ∈ keys key t.toList := by
  induction t generalizing path with
  | nil => simp [locate]
  | node c l i a r ihl ihr =>
    simp only [Ordered, Tree.toList_node, keys_append, keys_cons, List.pairwise_append,
      List.pairwise_cons, List.mem_cons] at ordered
    obtain ⟨ol, ⟨ar, or_⟩, la⟩ := ordered
    simp only [Tree.toList_node, keys_append, keys_cons, List.mem_append, List.mem_cons]
    unfold locate
    split
    · rename_i less
      rw [ihl ol]
      constructor
      · exact .inl
      · rintro (left | rfl | right)
        · exact left
        · exact absurd less (lt_irrefl _)
        · exact absurd (lt_trans less (ar k right)) (lt_irrefl _)
    · split
      · rename_i more
        rw [ihr or_]
        constructor
        · exact fun right => .inr (.inr right)
        · rintro (left | rfl | right)
          · exact absurd (lt_trans more (la k left _ (.inl rfl))) (lt_irrefl _)
          · exact absurd more (lt_irrefl _)
          · exact right
      · rename_i notLess notMore
        have same : k = key a := le_antisymm (not_lt.mp notMore) (not_lt.mp notLess)
        simp [same]

theorem insert_none {i : ι} {a : α} {t : Tree ι α} (ordered : Ordered key t) :
    insert key i a t = none ↔ key a ∈ keys key t.toList := by
  rw [insert, Option.map_eq_none_iff, locate_none ordered]

theorem insert_toList {i : ι} {a : α} {t u : Tree ι α} (ordered : Ordered key t)
    (done : insert key i a t = some u) : ∃ front back, t.toList = front ++ back ∧
      u.toList = front ++ (i, a) :: back ∧ (∀ x ∈ keys key front, x < key a) ∧
      ∀ x ∈ keys key back, key a < x := by
  obtain ⟨place, found, rfl⟩ := Option.map_eq_some_iff.mp done
  have same := locate_fill found
  have between := locate_between ordered (by simp) (by simp) found
  refine ⟨Path.before place, Path.after place, ?_, ?_, between⟩
  · rw [← show Path.fill [] t = t from rfl, ← same, Path.toList_fill]
    simp
  · rw [insertFixup_toList place Tree.node_ne_nil, Path.toList_fill]
    simp

theorem insert_ordered {i : ι} {a : α} {t u : Tree ι α} (ordered : Ordered key t)
    (done : insert key i a t = some u) : Ordered key u := by
  obtain ⟨front, back, whole, grown, low, high⟩ := insert_toList ordered done
  rw [Ordered, whole] at ordered
  rw [Ordered, grown]
  simp only [keys_append, keys_cons, List.pairwise_append, List.pairwise_cons, List.mem_cons] at *
  refine ⟨ordered.1, ⟨high, ordered.2.1⟩, ?_⟩
  rintro x before y (rfl | behind)
  · exact low x before
  · exact ordered.2.2 x before y behind

theorem insert_color {i : ι} {a : α} {t u : Tree ι α} (done : insert key i a t = some u) :
    u.color = .black := by
  obtain ⟨place, _, rfl⟩ := Option.map_eq_some_iff.mp done
  exact insertFixup_color place _

theorem insert_valid {i : ι} {a : α} {t u : Tree ι α} (valid : Valid t)
    (done : insert key i a t = some u) : Valid u := by
  obtain ⟨place, found, rfl⟩ := Option.map_eq_some_iff.mp done
  have same : Path.fill place .nil = t := locate_fill found
  rw [← same] at valid
  obtain ⟨n, fits, balanced, _⟩ := split_valid valid
  cases balanced
  exact insertFixup_valid place rfl (.red rfl rfl .nil .nil) fits

end

end RedBlack
