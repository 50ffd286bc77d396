import Yamq.Base.RbTreeValidity
import Yamq.Lib.RedBlack.Height
import Yamq.Decimal

/-! `rbtree_dump_for_watch` of `base/rbtree/rbtree_util.h`: a walk over the tree with a stack of its own,
which prints a line for each node, the right subtree first. -/
namespace Yamq

open RedBlack

/-- `struct node_backlog`, with `RBTREE_LEFT_INDEX` and `RBTREE_RIGHT_INDEX` as directions. -/
structure NodeBacklog where
  node : Ptr
  nextSubIdx : Dir
deriving DecidableEq, Repr

/-- `RBTREE_MAX_LEVEL` -/
def maxLevel : Nat := 64

/-- The locals of `rbtree_dump_for_watch`, and what has been printed. The stack is memory that starts
unset, and `popped` is what `p_nbl` points to. -/
structure DumpState where
  level : Nat
  node : Ptr
  popped : Option NodeBacklog
  stack : Nat → Option NodeBacklog
  top : Nat
  out : Bytes

namespace DumpState

/-- `nbl_push`, which drops what does not fit. -/
def nblPush (s : DumpState) (nbl : NodeBacklog) : DumpState :=
  if s.top < maxLevel then { s with stack := Function.update s.stack s.top (some nbl), top := s.top + 1 }
  else s

/-- A read of `nbl_stack[k]`. -/
def slot (s : DumpState) (k : Nat) : Except Fault NodeBacklog :=
  if maxLevel ≤ k then .error .outOfBounds
  else match s.stack k with
    | some nbl => .ok nbl
    | none => .error .wildPointer

/-- The entry that `nbl_pop` has returned becomes the current node. -/
def resume (s : DumpState) (nbl : NodeBacklog) : DumpState :=
  { s with top := s.top - 1, popped := some nbl, node := nbl.node, level := s.level - 1 }

end DumpState

namespace Rbtree

variable {V : Type}

/-- The `i`th pass of the loop that draws the lines. -/
def column (t : Rbtree V) (s : DumpState) (i : Nat) : Except Fault Bytes :=
  if i = s.level - 1 then .ok (ascii "+-------")
  else do
    if (← s.slot (i - 1)).node ≠ t.nil then return ascii "|       " else return ascii "        "

def drawLines (t : Rbtree V) (s : DumpState) : Except Fault Bytes := do
  return (← (List.range' 1 (s.level - 1)).mapM (t.column s)).flatten

/-- The first part of `node_dump`: on which side of its parent the node stands. -/
def sideDump (t : Rbtree V) (p parent : Ptr) : Except Fault Bytes :=
  if parent = .null then .ok []
  else do
    let n ← t.get parent
    if p = n.left then return ascii "L"
    else if p = n.right then return ascii "R"
    else return []

def nodeDump (t : Rbtree V) (p : Ptr) : Except Fault Bytes :=
  if p = .null then .ok []
  else do
    let n ← t.get p
    let side ← t.sideDump p n.parent
    return side ++ ascii (if n.col = .red then "R:" else "B:") ++ ascii (toString (toSize n.entry.key)) ++
      [LF]

/-- A turn of the loop at a node. -/
def visit (t : Rbtree V) (s : DumpState) : Except Fault DumpState := do
  let sub : Dir := match s.popped with
    | some nbl => nbl.nextSubIdx
    | none => .right
  let n ← t.get s.node
  let nbl : NodeBacklog :=
    if (n.left = t.nil ∧ n.right = t.nil) ∨ sub = .left then ⟨t.nil, .right⟩ else ⟨s.node, .left⟩
  let s : DumpState := { s.nblPush nbl with level := s.level + 1, popped := none }
  if sub = .right then
    let lines ← t.drawLines s
    let text ← t.nodeDump s.node
    return { s with out := s.out ++ lines ++ text, node := n.right }
  else return { s with node := n.left }

def dumpLoop (t : Rbtree V) : Nat → DumpState → Except Fault Bytes
  | 0, _ => .error .endless
  | fuel + 1, s =>
    if s.node ≠ t.nil then do t.dumpLoop fuel (← t.visit s)
    else if s.top = 0 then .ok s.out
    else do t.dumpLoop fuel (s.resume (← s.slot (s.top - 1)))

/-- What `rbtree_dump_for_watch` prints. The loop gets four turns for each address. -/
def dumpForWatch (t : Rbtree V) : Except Fault Bytes :=
  t.dumpLoop (4 * t.fresh) ⟨0, t.root, none, fun _ => none, 0, []⟩

/-! The drawing of a tree. Each node has a line; before it stands a column for each node above, which is an
arm for the parent and a bar for a node whose left side is still to come. -/

def columns (opens : List Bool) : Bytes :=
  (opens.mapIdx fun k isOpen => ascii (if k + 1 = opens.length then "+-------"
    else if isOpen then "|       " else "        ")).flatten

def sideText : Option Dir → Bytes
  | none => []
  | some .left => ascii "L"
  | some .right => ascii "R"

def nodeText (side : Option Dir) (c : Color) (e : Entry V) : Bytes :=
  sideText side ++ ascii (if c = .red then "R:" else "B:") ++ ascii (toString (toSize e.key)) ++ [LF]

def drawing (opens : List Bool) (side : Option Dir) : NodeTree V → Bytes
  | .nil => []
  | .node c l _ e r => columns opens ++ nodeText side c e ++
      drawing (opens ++ [true]) (some .right) r ++ drawing (opens ++ [false]) (some .left) l

/-- The stack holds these entries, the lowest first, and its height is the level. -/
structure Stacked (s : DumpState) (entries : List NodeBacklog) : Prop where
  top : s.top = entries.length
  level : s.level = entries.length
  slots : ∀ k < entries.length, s.stack k = entries[k]?

section
variable {s : DumpState} {entries : List NodeBacklog} {nbl : NodeBacklog} {t : Rbtree V}

theorem Stacked.slot (h : Stacked s entries) (fits : entries.length ≤ maxLevel) {k : Nat}
    (below : k < entries.length) : s.slot k = .ok entries[k] := by
  have inside : ¬ maxLevel ≤ k := by omega
  rw [DumpState.slot, if_neg inside, h.slots k below, List.getElem?_eq_getElem below]

theorem Stacked.push (h : Stacked s entries) (room : entries.length < maxLevel) (nbl : NodeBacklog)
    (popped : Option NodeBacklog) :
    Stacked { s.nblPush nbl with level := s.level + 1, popped := popped } (entries ++ [nbl]) := by
  have fits : s.top < maxLevel := h.top ▸ room
  have pushed : s.nblPush nbl = { s with
      stack := Function.update s.stack s.top (some nbl), top := s.top + 1 } := if_pos fits
  rw [pushed]
  constructor
  · rw [List.length_append, List.length_singleton, h.top]
  · rw [List.length_append, List.length_singleton, h.level]
  · intro k below
    rw [List.length_append, List.length_singleton] at below
    by_cases last : k = s.top
    · have there : (entries ++ [nbl])[k]? = some nbl := by simp [last, h.top]
      rw [there, last]
      exact Function.update_self ..
    · have inner : k < entries.length := by
        rw [h.top] at last
        omega
      rw [List.getElem?_append_left inner]
      exact (Function.update_of_ne last ..).trans (h.slots k inner)

theorem Stacked.pop (h : Stacked s (entries ++ [nbl])) : Stacked (s.resume nbl) entries := by
  have top := h.top
  have level := h.level
  rw [List.length_append, List.length_singleton] at top level
  constructor
  · exact congrArg (· - 1) top
  · exact congrArg (· - 1) level
  · intro k below
    have inner := h.slots k (by simp; omega)
    rwa [List.getElem?_append_left below] at inner

/-- Where the node is missing, the loop goes back to the entry on top. -/
theorem dumpLoop_pop (h : Stacked s (entries ++ [nbl])) (fits : entries.length < maxLevel)
    (missing : s.node = t.nil) (fuel : Nat) :
    t.dumpLoop (fuel + 1) s = t.dumpLoop fuel (s.resume nbl) := by
  have top := h.top
  rw [List.length_append, List.length_singleton] at top
  have some_ : s.top ≠ 0 := by omega
  have last : s.top - 1 < (entries ++ [nbl]).length := by simp [top]
  have short : (entries ++ [nbl]).length ≤ maxLevel := by
    rw [List.length_append]
    exact fits
  have read := h.slot short last
  have same : (entries ++ [nbl])[s.top - 1] = nbl := by simp [top]
  rw [dumpLoop, if_neg (fun other => other missing), if_neg some_, read, ok_bind, same]

theorem mapM_ok {α β : Type} {f : α → Except Fault β} {g : α → β} {xs : List α}
    (each : ∀ x ∈ xs, f x = .ok (g x)) : xs.mapM f = .ok (xs.map g) := by
  induction xs with
  | nil => rfl
  | cons x xs ih =>
    rw [List.forall_mem_cons] at each
    rw [List.mapM_cons, each.1, ok_bind, ih each.2, ok_bind, List.map_cons, pure_ok]

/-- The columns of a node whose own entry is on top. -/
theorem drawLines_spec (h : Stacked s (entries ++ [nbl])) (fits : entries.length < maxLevel) :
    t.drawLines s = .ok (columns (entries.map fun entry => decide (entry.node ≠ t.nil))) := by
  have level := h.level
  rw [List.length_append, List.length_singleton] at level
  have short : (entries ++ [nbl]).length ≤ maxLevel := by
    rw [List.length_append]
    exact fits
  let text (i : Nat) : Bytes := if i = s.level - 1 then ascii "+-------"
    else if ((entries ++ [nbl])[i - 1]?.map NodeBacklog.node).getD t.nil ≠ t.nil then ascii "|       "
    else ascii "        "
  have each : ∀ i ∈ List.range' 1 (s.level - 1), t.column s i = .ok (text i) := by
    intro i member
    rw [List.mem_range'_1] at member
    simp only [column, text]
    split
    · rfl
    · have inner : i - 1 < (entries ++ [nbl]).length := by
        rw [List.length_append, List.length_singleton]
        omega
      rw [h.slot short inner, ok_bind, List.getElem?_eq_getElem inner, Option.map_some, Option.getD_some]
      split <;> rfl
  rw [drawLines, mapM_ok each, ok_bind, pure_ok, columns]
  congr 2
  apply List.ext_getElem
  · simp [level]
  · intro k low high
    simp only [List.length_map, List.length_range', level, Nat.add_sub_cancel] at low
    have inner : (entries ++ [nbl])[k]? = some entries[k] := by
      rw [List.getElem?_append_left low, List.getElem?_eq_getElem low]
    simp only [List.getElem_map, List.getElem_range', List.getElem_mapIdx, List.length_map, text, level,
      Nat.one_mul, Nat.add_sub_cancel, inner, Option.map_some, Option.getD_some,
      decide_eq_true_eq, Nat.add_comm 1 k]
    split <;> rename_i arm
    · rfl
    · split <;> rfl

variable {path : NodePath V} {c : Color} {l r : NodeTree V} {i : Nat} {e : Entry V}

theorem sideDump_spec (h : Holds t (Path.fill path (.node c l i e r))) :
    t.sideDump (.at i) (above path) = .ok (sideText (path.head?.map Frame.dir)) := by
  cases path with
  | nil =>
    obtain ⟨n, here, left, right, _⟩ := h.sentinel
    simp only [sideDump, above, reduceCtorEq, if_false, get_at here, ok_bind, left, right, pure_ok]
    rfl
  | cons f path =>
    obtain ⟨d, c', j, e', sib⟩ := f
    have plugged : Holds t (Path.fill path (.join d c' (.node c l i e r) j e' sib)) := h
    have parent := get_at plugged.at_join
    have apart := plugged.children_ne (.inl Tree.node_ne_nil)
    rw [ptr_node] at apart parent
    have notNull : Ptr.at j ≠ .null := by simp
    rw [sideDump, above, if_neg notNull, parent, ok_bind]
    cases d with
    | left =>
      have same : Ptr.at i = (cell Dir.left (.at i) (ptr sib) (above path) c' e').left := rfl
      exact if_pos same
    | right =>
      have same : Ptr.at i = (cell Dir.right (.at i) (ptr sib) (above path) c' e').right := rfl
      have other : Ptr.at i ≠ (cell Dir.right (.at i) (ptr sib) (above path) c' e').left := apart
      rw [if_neg other]
      exact if_pos same

theorem nodeDump_spec (h : Holds t (Path.fill path (.node c l i e r))) :
    t.nodeDump (.at i) = .ok (nodeText (path.head?.map Frame.dir) c e) := by
  have notNull : Ptr.at i ≠ .null := by simp
  rw [nodeDump, if_neg notNull, get_at h.at_node, ok_bind, sideDump_spec h, ok_bind, pure_ok]
  rfl

/-- Whether the left side of the node of an entry is still to come. -/
def isOpen (t : Rbtree V) (nbl : NodeBacklog) : Bool := decide (nbl.node ≠ t.nil)

/-- The entry that the first visit of a node pushes. -/
def entry (t : Rbtree V) (l : NodeTree V) (i : Nat) (r : NodeTree V) : NodeBacklog :=
  if ptr l = t.nil ∧ ptr r = t.nil then ⟨t.nil, .right⟩ else ⟨.at i, .left⟩

theorem nblPush_out (s : DumpState) (nbl : NodeBacklog) :
    (s.nblPush nbl).out = s.out ∧ (s.nblPush nbl).node = s.node := by
  unfold DumpState.nblPush
  split <;> exact ⟨rfl, rfl⟩

/-- The first visit of a node prints its line and goes on to the right. -/
theorem visit_right (h : Holds t (Path.fill path (.node c l i e r))) (here : s.node = .at i)
    (first : s.popped = none) (stacked : Stacked s entries) (room : entries.length < maxLevel) :
    ∃ s', t.visit s = .ok s' ∧ s'.node = ptr r ∧ s'.popped = none ∧
      Stacked s' (entries ++ [t.entry l i r]) ∧
      s'.out = s.out ++ columns (entries.map t.isOpen) ++ nodeText (path.head?.map Frame.dir) c e := by
  have pushed := stacked.push room (t.entry l i r) none
  have same : (if ptr l = t.nil ∧ ptr r = t.nil then ⟨t.nil, .right⟩ else ⟨.at i, .left⟩ : NodeBacklog) =
      t.entry l i r := rfl
  simp only [visit, first, here, get_at h.at_node, ok_bind, reduceCtorEq, or_false, if_true, same,
    nblPush_out]
  have lines := drawLines_spec (t := t) pushed room
  simp only [here, nblPush_out] at lines
  rw [lines, ok_bind, nodeDump_spec h, ok_bind, pure_ok]
  exact ⟨_, rfl, rfl, rfl, ⟨pushed.top, pushed.level, pushed.slots⟩, rfl⟩

/-- The second visit prints nothing and goes on to the left. -/
theorem visit_left (h : Holds t (Path.fill path (.node c l i e r))) (here : s.node = .at i)
    (again : s.popped = some ⟨.at i, .left⟩) (stacked : Stacked s entries)
    (room : entries.length < maxLevel) :
    ∃ s', t.visit s = .ok s' ∧ s'.node = ptr l ∧ s'.popped = none ∧
      Stacked s' (entries ++ [⟨t.nil, .right⟩]) ∧ s'.out = s.out := by
  simp only [visit, again, here, get_at h.at_node, ok_bind, reduceCtorEq, or_true, if_true, if_false,
    pure_ok]
  have pushed := stacked.push room ⟨t.nil, .right⟩ none
  exact ⟨_, rfl, rfl, rfl, ⟨pushed.top, pushed.level, pushed.slots⟩, (nblPush_out ..).1⟩

/-- How many turns of the loop a subtree takes. -/
def turns : NodeTree V → Nat
  | .nil => 0
  | .node _ .nil _ _ .nil => 2
  | .node _ l _ _ r => turns r + turns l + 4

theorem turns_le (tree : NodeTree V) : turns tree ≤ 4 * tree.size := by
  fun_induction turns tree with
  | case1 => exact Nat.zero_le _
  | case2 => simp
  | case3 c l i e r _ ihr ihl =>
    rw [Tree.size_node]
    omega

/-- From a subtree on, the loop draws the subtree and comes back to what is on the stack. -/
structure Draws (t : Rbtree V) (s s' : DumpState) (entries : List NodeBacklog) (text : Bytes)
    (turns : Nat) : Prop where
  missing : s'.node = t.nil
  stacked : Stacked s' entries
  out : s'.out = s.out ++ text
  run : ∀ fuel, t.dumpLoop (turns + fuel) s = t.dumpLoop fuel s'

theorem isOpen_nil (t : Rbtree V) : t.isOpen ⟨t.nil, .right⟩ = false :=
  decide_eq_false fun other => other rfl

/-- A node without children: its line, and the entry that it has pushed is popped. -/
theorem draws_leaf (h : Holds t (Path.fill path (.node c .nil i e .nil))) (here : s.node = .at i)
    (first : s.popped = none) (stacked : Stacked s entries) (room : entries.length < maxLevel) :
    ∃ s', Draws t s s' entries (drawing (entries.map t.isOpen) (path.head?.map Frame.dir)
      (.node c .nil i e .nil)) 2 := by
  obtain ⟨s1, run1, node1, -, stacked1, out1⟩ := visit_right h here first stacked room
  have leaf : t.entry .nil i .nil = ⟨t.nil, .right⟩ := if_pos ⟨h.nil.symm, h.nil.symm⟩
  rw [leaf] at stacked1
  have missing1 : s1.node = t.nil := node1.trans h.nil.symm
  refine ⟨s1.resume ⟨t.nil, .right⟩, rfl, stacked1.pop, ?_, fun fuel => ?_⟩
  · simp only [drawing, List.append_nil]
    rw [← List.append_assoc]
    exact out1
  · have notNil : s.node ≠ t.nil := here ▸ h.not_nil (mem_ids_fill.mpr (.inl (by simp)))
    rw [Nat.add_comm 2 fuel, dumpLoop, if_pos notNil, run1, ok_bind, dumpLoop_pop stacked1 room missing1]

/-- A node with children: its line, the right subtree, the node again, the left subtree. -/
theorem draws_inner (h : Holds t (Path.fill path (.node c l i e r))) (inner : l ≠ .nil ∨ r ≠ .nil)
    (here : s.node = .at i) (first : s.popped = none) (stacked : Stacked s entries)
    (room : entries.length < maxLevel) {n m : Nat}
    (right : ∀ s1 : DumpState, s1.node = ptr r → s1.popped = none →
      Stacked s1 (entries ++ [⟨.at i, .left⟩]) → ∃ s2, Draws t s1 s2 (entries ++ [⟨.at i, .left⟩])
        (drawing (entries.map t.isOpen ++ [true]) (some .right) r) n)
    (left : ∀ s1 : DumpState, s1.node = ptr l → s1.popped = none →
      Stacked s1 (entries ++ [⟨t.nil, .right⟩]) → ∃ s2, Draws t s1 s2 (entries ++ [⟨t.nil, .right⟩])
        (drawing (entries.map t.isOpen ++ [false]) (some .left) l) m) :
    ∃ s', Draws t s s' entries (drawing (entries.map t.isOpen) (path.head?.map Frame.dir)
      (.node c l i e r)) (n + m + 4) := by
  have notNil : Ptr.at i ≠ t.nil := h.not_nil (mem_ids_fill.mpr (.inl (by simp)))
  have some_ {x : NodeTree V} (inside : ∀ a ∈ x.ids, a ∈ (Path.fill path (.node c l i e r)).ids)
      (exists_ : x ≠ .nil) : ptr x ≠ t.nil := by
    cases x with
    | nil => exact absurd rfl exists_
    | node c' l' j e' r' => exact h.not_nil (inside j (by simp))
  have entry : t.entry l i r = ⟨.at i, .left⟩ := by
    refine if_neg fun none => ?_
    rcases inner with l_ | r_
    · exact some_ (fun a member => mem_ids_fill.mpr (.inl (by simp [member]))) l_ none.1
    · exact some_ (fun a member => mem_ids_fill.mpr (.inl (by simp [member]))) r_ none.2
  obtain ⟨s1, run1, node1, popped1, stacked1, out1⟩ := visit_right h here first stacked room
  rw [entry] at stacked1
  obtain ⟨s2, d2⟩ := right s1 node1 popped1 stacked1
  have pop2 := d2.stacked.pop
  obtain ⟨s4, run4, node4, popped4, stacked4, out4⟩ :=
    visit_left (s := s2.resume ⟨.at i, .left⟩) h rfl rfl pop2 room
  obtain ⟨s5, d5⟩ := left s4 node4 popped4 stacked4
  refine ⟨s5.resume ⟨t.nil, .right⟩, rfl, d5.stacked.pop, ?_, fun fuel => ?_⟩
  · have out5 : s5.out = s2.out ++ _ := d5.out.trans (congrArg (· ++ _) out4)
    have whole : (s5.resume ⟨t.nil, .right⟩).out = s5.out := rfl
    rw [whole, out5, d2.out, out1, drawing]
    simp only [List.append_assoc]
  · have count : n + m + 4 + fuel = (n + ((m + (fuel + 1)) + 1 + 1)) + 1 := by omega
    have again : (s2.resume ⟨.at i, .left⟩).node ≠ t.nil := notNil
    rw [count, dumpLoop, if_pos (here ▸ notNil), run1, ok_bind, d2.run,
      dumpLoop_pop d2.stacked room d2.missing, dumpLoop, if_pos again, run4, ok_bind, d5.run,
      dumpLoop_pop d5.stacked room d5.missing]

theorem draws_subtree (tree : NodeTree V) {s : DumpState} {entries : List NodeBacklog} {path : NodePath V}
    (h : Holds t (Path.fill path tree)) (here : s.node = ptr tree) (first : s.popped = none)
    (stacked : Stacked s entries) (room : entries.length + tree.height ≤ maxLevel) :
    ∃ s', Draws t s s' entries (drawing (entries.map t.isOpen) (path.head?.map Frame.dir) tree)
      (turns tree) := by
  induction tree generalizing s entries path with
  | nil =>
    exact ⟨s, here.trans h.nil.symm, stacked, (List.append_nil _).symm,
      fun fuel => by rw [turns, Nat.zero_add]⟩
  | node c l i e r ihl ihr =>
    rw [Tree.height_node] at room
    have below : entries.length < maxLevel := by omega
    have deeper (nbl : NodeBacklog) : (entries ++ [nbl]).length = entries.length + 1 := List.length_append
    have opened : t.isOpen ⟨.at i, .left⟩ = true :=
      decide_eq_true (h.not_nil (mem_ids_fill.mpr (.inl (by simp))))
    by_cases inner : l ≠ .nil ∨ r ≠ .nil
    · have count : turns (.node c l i e r) = turns r + turns l + 4 := by
        cases l with
        | nil =>
          cases r with
          | nil => simp at inner
          | node => rfl
        | node => rfl
      rw [count]
      refine draws_inner h inner here first stacked below (fun s1 node1 popped1 stacked1 => ?_)
        (fun s1 node1 popped1 stacked1 => ?_)
      · have right : Holds t (Path.fill (⟨.right, c, i, e, l⟩ :: path) r) := h
        have drawn := ihr right node1 popped1 stacked1 (by rw [deeper]; omega)
        rwa [List.map_append, List.map_singleton, opened] at drawn
      · have left : Holds t (Path.fill (⟨.left, c, i, e, r⟩ :: path) l) := h
        have drawn := ihl left node1 popped1 stacked1 (by rw [deeper]; omega)
        rwa [List.map_append, List.map_singleton, isOpen_nil] at drawn
    · rw [not_or, not_not, not_not] at inner
      obtain ⟨rfl, rfl⟩ := inner
      exact draws_leaf h here first stacked below

/-- A tree of at most 64 levels is drawn as it is. -/
theorem Holds.dump {tree : NodeTree V} (h : Holds t tree) (shallow : tree.height ≤ maxLevel) :
    t.dumpForWatch = .ok (drawing [] none tree) := by
  have whole : Holds t (Path.fill [] tree) := h
  have start : Stacked ⟨0, t.root, none, fun _ => none, 0, []⟩ [] := ⟨rfl, rfl, nofun⟩
  obtain ⟨s, drawn⟩ := draws_subtree tree whole h.root rfl start (by simpa using shallow)
  have short := turns_le tree
  have fits := h.length_lt
  have size : tree.ids.length = tree.size := List.length_map ..
  obtain ⟨fuel, count⟩ : ∃ fuel, 4 * t.fresh = turns tree + (fuel + 1) :=
    ⟨4 * t.fresh - turns tree - 1, by omega⟩
  have empty : s.top = 0 := drawn.stacked.top
  rw [dumpForWatch, count, drawn.run, dumpLoop, if_neg (fun other => other drawn.missing), if_pos empty,
    drawn.out]
  rfl

/-! Each node has one line. -/

theorem columns_lines (opens : List Bool) : (columns opens).count LF = 0 := by
  rw [List.count_eq_zero, columns, List.mem_flatten]
  rintro ⟨text, member, inside⟩
  obtain ⟨k, below, rfl⟩ := List.mem_mapIdx.mp member
  revert inside
  split
  · decide
  · split <;> decide

theorem nodeText_lines (side : Option Dir) (c : Color) (e : Entry V) :
    (nodeText side c e).count LF = 1 := by
  have digits : LF ∉ ascii (toString (toSize e.key)) := by
    intro member
    have range := digit_byte member
    have newline : LF.toNat = 10 := rfl
    omega
  have front : LF ∉ sideText side := by
    rcases side with _ | _ | _ <;> decide
  have mark : LF ∉ ascii (if c = .red then "R:" else "B:") := by
    split <;> decide
  simp only [nodeText, List.count_append, List.count_eq_zero.mpr front, List.count_eq_zero.mpr mark,
    List.count_eq_zero.mpr digits, Nat.zero_add, List.count_singleton_self]

theorem drawing_lines (tree : NodeTree V) (opens : List Bool) (side : Option Dir) :
    (drawing opens side tree).count LF = tree.size := by
  induction tree generalizing opens side with
  | nil => rfl
  | node c l i e r ihl ihr =>
    simp only [drawing, List.count_append, columns_lines, nodeText_lines, ihl, ihr, Tree.size_node]
    omega

/-- In every valid tree of fewer than `2 ^ 33 - 1` nodes the walk of `rbtree_dump_for_watch` ends, it reads
no entry of its stack of 64 that it has not written, and what it prints is the drawing of the tree, with
one line for each node. -/
theorem dump_draws_tree {nodes : List (Nat × Entry V)} (h : Search t nodes)
    (few : nodes.length + 1 < 2 ^ 33) : ∃ tree, Holds t tree ∧ tree.toList = nodes ∧
      t.dumpForWatch = .ok (drawing [] none tree) ∧ (drawing [] none tree).count LF = nodes.length := by
  obtain ⟨tree, holds, valid, _, rfl⟩ := h
  have shallow : tree.height ≤ maxLevel := valid.height_le few
  exact ⟨tree, holds, rfl, holds.dump shallow, drawing_lines tree [] none⟩

/-- Two inserts, the first with the greater key. -/
theorem dump_draws_tree_two : ∃ t : Rbtree Nat, (create 0).insertAll [(20, 0), (10, 0)] = .ok t ∧
    t.dumpForWatch = .ok (ascii "B:20" ++ [LF] ++ ascii "+-------LR:10" ++ [LF]) := by
  let entries : List (Int × Nat) := [(20, 0), (10, 0)]
  let tree : NodeTree Nat := .node .black (.node .red .nil 2 ⟨10, 0⟩ .nil) 1 ⟨20, 0⟩ .nil
  have done : treeAll 1 .nil entries = some tree := rfl
  obtain ⟨t, run, holds, -⟩ := (create_holds 0).insertAll rfl done
  have ordered : ([10, 20] : List Int).Pairwise (· < ·) := by decide
  have search : Search t tree.toList :=
    ⟨tree, holds, ⟨rfl, 1, .black (.red rfl rfl .nil .nil) .nil⟩, ordered, rfl⟩
  obtain ⟨tree', holds', -, dumps, -⟩ := dump_draws_tree search (by decide)
  have keys : toSize 20 = 20 ∧ toSize 10 = 10 :=
    ⟨toSize_small (by decide) (by decide), toSize_small (by decide) (by decide)⟩
  have picture : drawing [] none tree = ascii "B:20" ++ [LF] ++ ascii "+-------LR:10" ++ [LF] := by
    simp only [tree, drawing, nodeText, keys]
    decide +kernel
  rw [holds'.unique holds, picture] at dumps
  exact ⟨t, run, dumps⟩

end

end Rbtree
end Yamq
