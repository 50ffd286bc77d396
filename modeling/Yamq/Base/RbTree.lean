import Yamq.Machine
import Yamq.Lib.RedBlack.Balance
import Mathlib.Logic.Function.Basic

/-! `base/rbtree/rbtree.cpp`: a red-black tree of nodes on the heap with parent pointers and one
sentinel. Where the source writes a branch and its mirror image, the model writes it once for a side
`d`: the `left` of the source is then `child d` and its `right` is `child d.other`. -/
namespace Yamq

open RedBlack (Color Dir)

/-- A node pointer. `wild` is the value of memory that was never written. -/
inductive Ptr where
  | null
  | wild
  | at (addr : Nat)
deriving DecidableEq, Repr

structure Entry (V : Type) where
  key : Int
  val : V
deriving DecidableEq, Repr

structure RbNode (V : Type) where
  left : Ptr
  right : Ptr
  parent : Ptr
  col : Color
  entry : Entry V
deriving DecidableEq, Repr

namespace RbNode

variable {V : Type}

def child (n : RbNode V) (d : Dir) : Ptr := d.pick n.left n.right

def setChild (n : RbNode V) (d : Dir) (p : Ptr) : RbNode V :=
  match d with
  | .left => { n with left := p }
  | .right => { n with right := p }

end RbNode

structure Rbtree (V : Type) where
  root : Ptr
  nil : Ptr
  heap : Nat → Option (RbNode V)
  /-- no address from here on has been allocated -/
  fresh : Nat

namespace Rbtree

variable {V : Type}

def get (t : Rbtree V) : Ptr → Except Fault (RbNode V)
  | .null => .error .nullPointer
  | .wild => .error .wildPointer
  | .at a =>
    match t.heap a with
    | some n => .ok n
    | none => .error .useAfterFree

def put (t : Rbtree V) (a : Nat) (n : Option (RbNode V)) : Rbtree V :=
  { t with heap := Function.update t.heap a n }

/-- A write through a pointer. -/
def modify (t : Rbtree V) (p : Ptr) (f : RbNode V → RbNode V) : Except Fault (Rbtree V) :=
  match p with
  | .at a => do return t.put a (some (f (← t.get (.at a))))
  | p => do
    let _ ← t.get p
    return t

def setChild (t : Rbtree V) (d : Dir) (p q : Ptr) : Except Fault (Rbtree V) :=
  t.modify p fun n => n.setChild d q

def setParent (t : Rbtree V) (p q : Ptr) : Except Fault (Rbtree V) :=
  t.modify p fun n => { n with parent := q }

def setCol (t : Rbtree V) (p : Ptr) (c : Color) : Except Fault (Rbtree V) :=
  t.modify p fun n => { n with col := c }

def setEntry (t : Rbtree V) (p : Ptr) (e : Entry V) : Except Fault (Rbtree V) :=
  t.modify p fun n => { n with entry := e }

/-- `new` takes the place of `old` below `parent`. -/
def replace (t : Rbtree V) (parent old new : Ptr) : Except Fault (Rbtree V) :=
  if parent = t.nil then .ok { t with root := new }
  else do
    if old = (← t.get parent).left then t.setChild .left parent new
    else t.setChild .right parent new

/-- The parent of a child that moves to `x`, unless the child is the sentinel. -/
def adopt (t : Rbtree V) (inner x : Ptr) : Except Fault (Rbtree V) :=
  if inner = t.nil then .ok t else t.setParent inner x

def rotate (d : Dir) (t : Rbtree V) (x : Ptr) : Except Fault (Rbtree V) := do
  let y := (← t.get x).child d.other
  if y = t.nil then return t
  else
    let inner := (← t.get y).child d
    let t ← t.setChild d.other x inner
    let t ← t.adopt inner x
    let parent := (← t.get x).parent
    let t ← t.setParent y parent
    let t ← t.replace parent x y
    let t ← t.setParent x y
    t.setChild d y x

def leftRotate (t : Rbtree V) (x : Ptr) : Except Fault (Rbtree V) := t.rotate .left x

def rightRotate (t : Rbtree V) (x : Ptr) : Except Fault (Rbtree V) := t.rotate .right x

/-! Insertion. A loop gets one turn for each address allocated so far: in a tree without cycles it
visits a node at most once. -/

/-- The turn to the outer case: `n` moves to its parent, which is rotated away from the uncle. -/
def insertTurn (d : Dir) (t : Rbtree V) (n : Ptr) : Except Fault (Rbtree V × Ptr) := do
  let parent := (← t.get n).parent
  if n = (← t.get parent).child d.other then return (← t.rotate d parent, parent)
  else return (t, n)

def insertFixupSide (d : Dir) (t : Rbtree V) (n : Ptr) : Except Fault (Rbtree V × Ptr) := do
  let parent := (← t.get n).parent
  let grand := (← t.get parent).parent
  let uncle := (← t.get grand).child d.other
  if (← t.get uncle).col = .red then
    let t ← t.setCol parent .black
    let t ← t.setCol uncle .black
    let t ← t.setCol grand .red
    return (t, grand)
  else
    let (t, n) ← t.insertTurn d n
    let parent := (← t.get n).parent
    let t ← t.setCol parent .black
    let grand := (← t.get parent).parent
    let t ← t.setCol grand .red
    return (← t.rotate d.other grand, n)

def insertFixupLoop : Nat → Rbtree V → Ptr → Except Fault (Rbtree V)
  | 0, _, _ => .error .endless
  | fuel + 1, t, n => do
    let parent := (← t.get n).parent
    if (← t.get parent).col = .red then
      let grand := (← t.get parent).parent
      let d : Dir := if parent = (← t.get grand).left then .left else .right
      let (t, n) ← t.insertFixupSide d n
      insertFixupLoop fuel t n
    else return t

def insertFixup (t : Rbtree V) (n : Ptr) : Except Fault (Rbtree V) := do
  let t ← insertFixupLoop t.fresh t n
  t.setCol t.root .black

/-- The search of `_rbtree_insert_node` from `x`, with `p` the node before it; `none` is a key that
exists. -/
def findPlace (t : Rbtree V) (key : Int) : Nat → Ptr → Ptr → Except Fault (Option Ptr)
  | 0, _, _ => .error .endless
  | fuel + 1, x, p =>
    if x = t.nil then .ok (some p)
    else do
      let n ← t.get x
      if key < n.entry.key then t.findPlace key fuel n.left x
      else if n.entry.key < key then t.findPlace key fuel n.right x
      else return none

/-- The new node `n` under `p`. -/
def hang (t : Rbtree V) (p n : Ptr) (key : Int) : Except Fault (Rbtree V) :=
  if p = t.nil then .ok { t with root := n }
  else do
    if key < (← t.get p).entry.key then t.setChild .left p n else t.setChild .right p n

def insertNode (t : Rbtree V) (n : Ptr) : Except Fault (Rbtree V) := do
  let key := (← t.get n).entry.key
  match ← t.findPlace key t.fresh t.root t.root with
  | none => return t
  | some p =>
    let t ← t.setParent n p
    let t ← t.hang p n key
    let t ← t.setChild .right n t.nil
    let t ← t.setChild .left n t.nil
    let t ← t.setCol n .red
    t.insertFixup n

/-- `malloc` of a node. Its pointers are not set, and neither is its colour, which nothing reads
before it is set. -/
def alloc (t : Rbtree V) (e : Entry V) : Rbtree V :=
  { t.put t.fresh (some ⟨.wild, .wild, .wild, .black, e⟩) with fresh := t.fresh + 1 }

/-- `rbtree_insert` returns the new node also when the key exists and the node stays outside. -/
def insert (t : Rbtree V) (key : Int) (data : V) : Except Fault (Rbtree V × Ptr) := do
  return (← (t.alloc ⟨key, data⟩).insertNode (.at t.fresh), .at t.fresh)

def create (unset : V) : Rbtree V where
  root := .at 0
  nil := .at 0
  heap := fun a => if a = 0 then some ⟨.null, .null, .null, .black, ⟨0, unset⟩⟩ else none
  fresh := 1

def minLoop (t : Rbtree V) : Nat → Ptr → Ptr → Except Fault Ptr
  | 0, _, _ => .error .endless
  | fuel + 1, x, least => if x = t.nil then .ok least else do t.minLoop fuel (← t.get x).left x

/-- `rbtree_min`, which is the sentinel in an empty tree. -/
def min (t : Rbtree V) : Except Fault Ptr := t.minLoop t.fresh t.root t.root

def maxLoop (t : Rbtree V) : Nat → Ptr → Ptr → Except Fault Ptr
  | 0, _, _ => .error .endless
  | fuel + 1, x, most => if x = t.nil then .ok most else do t.maxLoop fuel (← t.get x).right x

def max (t : Rbtree V) : Except Fault Ptr := t.maxLoop t.fresh t.root t.root

/-- The loop of `rbtree_successor` over the nodes above. It stops at the root from either side. -/
def successorUp (t : Rbtree V) : Nat → Ptr → Ptr → Except Fault Ptr
  | 0, _, _ => .error .endless
  | fuel + 1, x, p =>
    if p = t.root then .ok p
    else do
      let n ← t.get p
      if n.right = x then t.successorUp fuel p n.parent else return p

def successor (t : Rbtree V) (n : Ptr) : Except Fault Ptr :=
  if n = t.nil then .ok .null
  else do
    let right := (← t.get n).right
    if right = t.nil then t.successorUp t.fresh n (← t.get n).parent
    else t.minLoop t.fresh right right

/-! Deletion. -/

/-- A red sibling goes on top and gives way to its near child. -/
def delCase1 (d : Dir) (t : Rbtree V) (x w : Ptr) : Except Fault (Rbtree V × Ptr) := do
  if (← t.get w).col = .red then
    let t ← t.setCol w .black
    let parent := (← t.get x).parent
    let t ← t.setCol parent .red
    let t ← t.rotate d parent
    return (t, (← t.get (← t.get x).parent).child d.other)
  else return (t, w)

/-- `w->left->col == BLACK && w->right->col == BLACK` -/
def bothBlack (t : Rbtree V) (w : Ptr) : Except Fault Bool := do
  if (← t.get (← t.get w).left).col = .black then
    return (← t.get (← t.get w).right).col = .black
  else return false

def delCase3 (d : Dir) (t : Rbtree V) (x w : Ptr) : Except Fault (Rbtree V × Ptr) := do
  if (← t.get ((← t.get w).child d.other)).col = .black then
    let t ← t.setCol ((← t.get w).child d) .black
    let t ← t.setCol w .red
    let t ← t.rotate d.other w
    return (t, (← t.get (← t.get x).parent).child d.other)
  else return (t, w)

/-- Both sides paint `w->right`; only on the left side is that the far child. -/
def delCase4 (d : Dir) (t : Rbtree V) (x w : Ptr) : Except Fault (Rbtree V × Ptr) := do
  let parent := (← t.get x).parent
  let t ← t.setCol w (← t.get parent).col
  let t ← t.setCol parent .black
  let t ← t.setCol (← t.get w).right .black
  let t ← t.rotate d parent
  return (t, t.root)

def delFixupSide (d : Dir) (t : Rbtree V) (x : Ptr) : Except Fault (Rbtree V × Ptr) := do
  let w := (← t.get (← t.get x).parent).child d.other
  let (t, w) ← t.delCase1 d x w
  if ← t.bothBlack w then
    let t ← t.setCol w .red
    return (t, (← t.get x).parent)
  else
    let (t, w) ← t.delCase3 d x w
    t.delCase4 d x w

def delFixupLoop : Nat → Rbtree V → Ptr → Except Fault (Rbtree V × Ptr)
  | 0, _, _ => .error .endless
  | fuel + 1, t, x =>
    if x = t.root then .ok (t, x)
    else do
      if (← t.get x).col = .black then
        let parent := (← t.get x).parent
        let d : Dir := if x = (← t.get parent).left then .left else .right
        let (t, x) ← t.delFixupSide d x
        delFixupLoop fuel t x
      else return (t, x)

def delFixup (t : Rbtree V) (x : Ptr) : Except Fault (Rbtree V) := do
  let (t, x) ← delFixupLoop t.fresh t x
  t.setCol x .black

def successorLoop (t : Rbtree V) : Nat → Ptr → Except Fault Ptr
  | 0, _ => .error .endless
  | fuel + 1, y => do
    let left := (← t.get y).left
    if left = t.nil then return y else t.successorLoop fuel left

/-- The node that goes: `z`, or its successor after `z` has taken its key and value. -/
def delTarget (t : Rbtree V) (z : Ptr) : Except Fault (Rbtree V × Ptr) := do
  let n ← t.get z
  if n.left ≠ t.nil ∧ n.right ≠ t.nil then
    let y ← t.successorLoop t.fresh n.right
    return (← t.setEntry z (← t.get y).entry, y)
  else return (t, z)

def free (t : Rbtree V) : Ptr → Rbtree V
  | .at a => t.put a none
  | _ => t

def delete (t : Rbtree V) (z : Ptr) : Except Fault (Rbtree V) := do
  let (t, y) ← t.delTarget z
  let n ← t.get y
  let x := if n.left = t.nil then n.right else n.left
  let t ← t.setParent x n.parent
  let t ← t.replace n.parent y x
  if (← t.get y).col = .black then
    let t ← t.delFixup x
    return t.free y
  else return t.free y

end Rbtree
end Yamq
