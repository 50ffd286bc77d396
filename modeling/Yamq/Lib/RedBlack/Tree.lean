import Mathlib.Data.List.Basic

/-! Red-black trees whose nodes have an identity (`ι`) and contents (`α`), and the paths from a
place in a tree to its root. Both types are parameters. -/
namespace RedBlack

inductive Color where
  | red | black
deriving DecidableEq, Repr

theorem Color.red_of_ne_black {c : Color} (h : c ≠ .black) : c = .red := by
  cases c with
  | red => rfl
  | black => exact absurd rfl h

theorem Color.black_of_ne_red {c : Color} (h : c ≠ .red) : c = .black := by
  cases c with
  | red => exact absurd rfl h
  | black => rfl

inductive Dir where
  | left | right
deriving DecidableEq, Repr

def Dir.other : Dir → Dir
  | .left => .right
  | .right => .left

inductive Tree (ι α : Type) where
  | nil
  | node (c : Color) (l : Tree ι α) (i : ι) (a : α) (r : Tree ι α)
deriving DecidableEq, Repr

namespace Tree

variable {ι α : Type}

/-- A missing node counts as black. -/
def color : Tree ι α → Color
  | nil => .black
  | node c _ _ _ _ => c

def paint (c : Color) : Tree ι α → Tree ι α
  | nil => nil
  | node _ l i a r => node c l i a r

/-- A node with the subtree `t` on side `d` and `s` on the other. -/
def join (d : Dir) (c : Color) (t : Tree ι α) (i : ι) (a : α) (s : Tree ι α) : Tree ι α :=
  match d with
  | .left => node c t i a s
  | .right => node c s i a t

theorem node_ne_nil {c : Color} {l r : Tree ι α} {i : ι} {a : α} : node c l i a r ≠ nil := nofun

theorem join_ne_nil {d : Dir} {c : Color} {t s : Tree ι α} {i : ι} {a : α} :
    join d c t i a s ≠ nil := by
  cases d <;> exact node_ne_nil

def toList : Tree ι α → List (ι × α)
  | nil => []
  | node _ l i a r => l.toList ++ (i, a) :: r.toList

def ids (t : Tree ι α) : List ι := t.toList.map Prod.fst

@[simp] theorem toList_nil : (nil : Tree ι α).toList = [] := rfl

@[simp] theorem toList_node (c : Color) (l : Tree ι α) (i : ι) (a : α) (r : Tree ι α) :
    (node c l i a r).toList = l.toList ++ (i, a) :: r.toList := rfl

@[simp] theorem ids_nil : (nil : Tree ι α).ids = [] := rfl

@[simp] theorem ids_node (c : Color) (l : Tree ι α) (i : ι) (a : α) (r : Tree ι α) :
    (node c l i a r).ids = l.ids ++ i :: r.ids := by
  simp [ids]

@[simp] theorem color_node (c : Color) (l : Tree ι α) (i : ι) (a : α) (r : Tree ι α) :
    (node c l i a r).color = c := rfl

@[simp] theorem toList_paint (c : Color) (t : Tree ι α) : (t.paint c).toList = t.toList := by
  cases t <;> rfl

@[simp] theorem ids_paint (c : Color) (t : Tree ι α) : (t.paint c).ids = t.ids := by
  simp [ids]

end Tree

/-- One step of a path: the node passed, the side on which the path goes on, and the subtree on
the other side. -/
structure Frame (ι α : Type) where
  dir : Dir
  color : Color
  id : ι
  val : α
  sib : Tree ι α
deriving DecidableEq, Repr

namespace Frame

variable {ι α : Type}

def plug (f : Frame ι α) (t : Tree ι α) : Tree ι α := .join f.dir f.color t f.id f.val f.sib

/-- What stands before the hole of a frame, and behind it. -/
def before (f : Frame ι α) : List (ι × α) :=
  match f.dir with
  | .left => []
  | .right => f.sib.toList ++ [(f.id, f.val)]

def after (f : Frame ι α) : List (ι × α) :=
  match f.dir with
  | .left => (f.id, f.val) :: f.sib.toList
  | .right => []

theorem toList_plug (f : Frame ι α) (t : Tree ι α) :
    (f.plug t).toList = f.before ++ t.toList ++ f.after := by
  obtain ⟨d, c, i, a, s⟩ := f
  cases d <;> simp [plug, Tree.join, before, after]

end Frame

/-- From a place in a tree to the root, the nearest node first. -/
abbrev Path (ι α : Type) := List (Frame ι α)

namespace Path

variable {ι α : Type}

def fill : Path ι α → Tree ι α → Tree ι α
  | [], t => t
  | f :: path, t => fill path (f.plug t)

def before : Path ι α → List (ι × α)
  | [] => []
  | f :: path => before path ++ f.before

def after : Path ι α → List (ι × α)
  | [] => []
  | f :: path => f.after ++ after path

@[simp] theorem fill_nil (t : Tree ι α) : fill [] t = t := rfl

@[simp] theorem fill_cons (f : Frame ι α) (path : Path ι α) (t : Tree ι α) :
    fill (f :: path) t = fill path (f.plug t) := rfl

@[simp] theorem before_nil : before ([] : Path ι α) = [] := rfl

@[simp] theorem before_cons (f : Frame ι α) (path : Path ι α) :
    before (f :: path) = before path ++ f.before := rfl

@[simp] theorem after_nil : after ([] : Path ι α) = [] := rfl

@[simp] theorem after_cons (f : Frame ι α) (path : Path ι α) :
    after (f :: path) = f.after ++ after path := rfl

theorem toList_fill (path : Path ι α) (t : Tree ι α) :
    (fill path t).toList = before path ++ t.toList ++ after path := by
  induction path generalizing t with
  | nil => simp
  | cons f path ih => simp [ih, Frame.toList_plug]

end Path

end RedBlack
