import Yamq.Lib.RedBlack.Tree

/-! The colour and height invariants of red-black trees, for a whole tree and for a path whose place
is still to be filled. -/
namespace RedBlack

variable {ι α : Type}

def Dir.pick {β : Type} (d : Dir) (x y : β) : β :=
  match d with
  | .left => x
  | .right => y

theorem Tree.join_pick (d : Dir) (c : Color) (l : Tree ι α) (i : ι) (a : α) (r : Tree ι α) :
    Tree.join d c (d.pick l r) i a (d.pick r l) = .node c l i a r := by
  cases d <;> rfl

@[simp] theorem Tree.color_join (d : Dir) (c : Color) (t : Tree ι α) (i : ι) (a : α) (s : Tree ι α) :
    (Tree.join d c t i a s).color = c := by
  cases d <;> rfl

@[simp] theorem Tree.paint_join (d : Dir) (c c' : Color) (t : Tree ι α) (i : ι) (a : α)
    (s : Tree ι α) : (Tree.join d c t i a s).paint c' = .join d c' t i a s := by
  cases d <;> rfl

@[simp] theorem Tree.paint_color (t : Tree ι α) : t.paint t.color = t := by
  cases t <;> rfl

theorem color_paint_black (t : Tree ι α) : (t.paint .black).color = .black := by
  cases t <;> rfl

/-- Below the root of a path the contents of the place do not show. -/
theorem Path.color_fill (f : Frame ι α) (path : Path ι α) (t s : Tree ι α) :
    (Path.fill (f :: path) t).color = (Path.fill (f :: path) s).color := by
  induction path generalizing f t s with
  | nil => simp [Frame.plug]
  | cons g path ih => exact ih g _ _

/-- No red node has a red child, and every path to a missing node passes `n` black nodes. -/
inductive Balanced : Tree ι α → Nat → Prop where
  | nil : Balanced .nil 0
  | red {l r : Tree ι α} {i : ι} {a : α} {n : Nat} : l.color = .black → r.color = .black →
      Balanced l n → Balanced r n → Balanced (.node .red l i a r) n
  | black {l r : Tree ι α} {i : ι} {a : α} {n : Nat} : Balanced l n → Balanced r n →
      Balanced (.node .black l i a r) (n + 1)

section
variable {d : Dir} {c : Color} {t s : Tree ι α} {i : ι} {a : α} {n : Nat}

theorem balanced_join_red : Balanced (.join d .red t i a s) n ↔
    t.color = .black ∧ s.color = .black ∧ Balanced t n ∧ Balanced s n := by
  constructor
  · intro h
    cases d with
    | left => cases h with | red ht hs bt bs => exact ⟨ht, hs, bt, bs⟩
    | right => cases h with | red hs ht bs bt => exact ⟨ht, hs, bt, bs⟩
  · rintro ⟨ht, hs, bt, bs⟩
    cases d with
    | left => exact .red ht hs bt bs
    | right => exact .red hs ht bs bt

theorem balanced_join_black :
    Balanced (.join d .black t i a s) (n + 1) ↔ Balanced t n ∧ Balanced s n := by
  constructor
  · intro h
    cases d with
    | left => cases h with | black bt bs => exact ⟨bt, bs⟩
    | right => cases h with | black bs bt => exact ⟨bt, bs⟩
  · rintro ⟨bt, bs⟩
    cases d with
    | left => exact .black bt bs
    | right => exact .black bs bt

theorem Balanced.height_pos (h : Balanced (.join d .black t i a s) n) : ∃ m, n = m + 1 := by
  cases d <;> cases h <;> exact ⟨_, rfl⟩

theorem Balanced.eq_nil (h : Balanced t 0) (black : t.color = .black) : t = .nil := by
  cases h with
  | nil => rfl
  | red => cases black

theorem Balanced.paint_black (h : Balanced t n) (red : t.color = .red) :
    Balanced (t.paint .black) (n + 1) := by
  cases h with
  | nil => cases red
  | red _ _ bl br => exact .black bl br
  | black => cases red

theorem Balanced.eq_node (h : Balanced t (n + 1)) : ∃ c l i a r, t = .node c l i a r := by
  cases h with
  | red => exact ⟨_, _, _, _, _, rfl⟩
  | black => exact ⟨_, _, _, _, _, rfl⟩

end

/-- All the invariants but the order of the keys. -/
def Valid (t : Tree ι α) : Prop := t.color = .black ∧ ∃ n, Balanced t n

/-- How many black nodes every path passes, when they pass the same number and no red node has a red
child. -/
def blackHeight : Tree ι α → Option Nat
  | .nil => some 0
  | .node c l _ _ r =>
    match blackHeight l, blackHeight r with
    | some n, some m =>
      if n ≠ m then none
      else
        match c with
        | .black => some (n + 1)
        | .red => if l.color = .black ∧ r.color = .black then some n else none
    | _, _ => none

theorem balanced_iff {t : Tree ι α} {n : Nat} : Balanced t n ↔ blackHeight t = some n := by
  constructor
  · intro h
    induction h with
    | nil => rfl
    | red hl hr _ _ ihl ihr => simp [blackHeight, ihl, ihr, hl, hr]
    | black _ _ ihl ihr => simp [blackHeight, ihl, ihr]
  · intro h
    induction t generalizing n with
    | nil =>
      cases h
      exact .nil
    | node c l i a r ihl ihr =>
      cases hl : blackHeight l with
      | none => simp [blackHeight, hl] at h
      | some x =>
        cases hr : blackHeight r with
        | none => simp [blackHeight, hl, hr] at h
        | some y =>
          cases c with
          | black =>
            simp only [blackHeight, hl, hr] at h
            split_ifs at h with differ
            obtain rfl : x = y := not_not.mp differ
            cases h
            exact .black (ihl hl) (ihr hr)
          | red =>
            simp only [blackHeight, hl, hr] at h
            split_ifs at h with differ black
            obtain rfl : x = y := not_not.mp differ
            cases h
            exact .red black.1 black.2 (ihl hl) (ihr hr)

instance (t : Tree ι α) : Decidable (Valid t) :=
  decidable_of_iff (t.color = .black ∧ (blackHeight t).isSome) (by
    simp only [Valid, balanced_iff, Option.isSome_iff_exists])

/-- The colour of the node above a place. -/
def Path.above : Path ι α → Option Color
  | [] => none
  | f :: _ => some f.color

/-- A path whose place takes a tree of black height `n`. -/
inductive Fits : Path ι α → Nat → Prop where
  | top (n : Nat) : Fits [] n
  | red {f : Frame ι α} {path : Path ι α} {n : Nat} : f.color = .red → Path.above path = some .black →
      f.sib.color = .black → Balanced f.sib n → Fits path n → Fits (f :: path) n
  | black {f : Frame ι α} {path : Path ι α} {n : Nat} : f.color = .black → Balanced f.sib n →
      Fits path (n + 1) → Fits (f :: path) n

/-- A place not below a black node takes only a black root. -/
def Suits (path : Path ι α) (t : Tree ι α) : Prop := Path.above path = some .black ∨ t.color = .black

theorem fill_valid {path : Path ι α} {t : Tree ι α} {n : Nat} (fits : Fits path n)
    (balanced : Balanced t n) (suits : Suits path t) : Valid (Path.fill path t) := by
  induction fits generalizing t with
  | top n =>
    rcases suits with none | black
    · cases none
    · exact ⟨black, n, balanced⟩
  | @red f path n color head sib bs _ ih =>
    rcases suits with wrong | black
    · simp [Path.above, color] at wrong
    · apply ih _ (.inl head)
      rw [Frame.plug, color, balanced_join_red]
      exact ⟨black, sib, balanced, bs⟩
  | @black f path n color bs _ ih =>
    apply ih
    · rw [Frame.plug, color, balanced_join_black]
      exact ⟨balanced, bs⟩
    · exact .inr (by rw [Frame.plug, color, Tree.color_join])

theorem split_valid {path : Path ι α} {t : Tree ι α} (valid : Valid (Path.fill path t)) :
    ∃ n, Fits path n ∧ Balanced t n ∧ Suits path t := by
  induction path generalizing t with
  | nil =>
    obtain ⟨black, n, balanced⟩ := valid
    exact ⟨n, .top n, balanced, .inr black⟩
  | cons f path ih =>
    obtain ⟨n, fits, balanced, suits⟩ := ih valid
    rw [Frame.plug] at balanced
    rw [Suits, Frame.plug, Tree.color_join] at suits
    cases color : f.color with
    | red =>
      rw [color, balanced_join_red] at balanced
      obtain ⟨ht, hs, bt, bs⟩ := balanced
      have head : Path.above path = some .black := suits.resolve_right (by simp [color])
      exact ⟨n, .red color head hs bs fits, bt, .inr ht⟩
    | black =>
      rw [color] at balanced
      obtain ⟨m, rfl⟩ := balanced.height_pos
      obtain ⟨bt, bs⟩ := balanced_join_black.mp balanced
      exact ⟨m, .black color bs fits, bt, .inl (by simp [Path.above, color])⟩

theorem Valid.paint {t : Tree ι α} (h : Valid t) : t.paint .black = t := by
  rw [← h.1, Tree.paint_color]

theorem valid_nil : Valid (.nil : Tree ι α) := ⟨rfl, 0, .nil⟩

end RedBlack
