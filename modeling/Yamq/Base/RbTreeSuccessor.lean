import Mathlib.Data.List.Nodup
import Yamq.Base.RbTreeContents

/-! `rbtree_min`, `rbtree_max` and `rbtree_successor` as a walk over the nodes in their order. -/
namespace Yamq.Rbtree

open RedBlack

variable {V : Type} {t : Rbtree V} {nodes : List (Nat × Entry V)} {i : Nat} {e : Entry V}

/-- The node with the least key that is greater than the key of `e`; nil or NULL when none is. -/
def IsNext (t : Rbtree V) (nodes : List (Nat × Entry V)) (e : Entry V) (q : Ptr) : Prop :=
  (∃ j f, q = .at j ∧ (j, f) ∈ nodes ∧ e.key < f.key ∧
    ∀ x ∈ nodes, e.key < x.2.key → f.key ≤ x.2.key) ∨
  (q = t.nil ∨ q = .null) ∧ ∀ x ∈ nodes, x.2.key ≤ e.key

/-- The nodes that one meets from `n` on by `rbtree_successor`, up to nil or NULL. -/
def traverse (t : Rbtree V) : Nat → Ptr → Except Fault (List Ptr)
  | 0, _ => .error .endless
  | fuel + 1, n =>
    if n = t.nil ∨ n = .null then .ok []
    else do return n :: (← t.traverse fuel (← t.successor n))

theorem maxLoop_spec {n : NodeTree V} {path : NodePath V} {most : Ptr} {fuel : Nat}
    (h : Holds t (Path.fill path n)) (enough : n.ids.length < fuel) :
    t.maxLoop fuel (ptr n) most = .ok ((n.toList.getLast?.map fun x => .at x.1).getD most) := by
  induction n generalizing path most fuel with
  | nil =>
    obtain ⟨fuel, rfl⟩ : ∃ f, fuel = f + 1 := ⟨fuel - 1, by omega⟩
    exact if_pos h.nil.symm
  | node c l i e r _ ihr =>
    obtain ⟨fuel, rfl⟩ : ∃ f, fuel = f + 1 := ⟨fuel - 1, by omega⟩
    simp only [Tree.ids_node, List.length_append, List.length_cons] at enough
    have notNil : Ptr.at i ≠ t.nil := by
      apply h.not_nil
      rw [mem_ids_fill]
      simp
    have right : Holds t (Path.fill (⟨.right, c, i, e, l⟩ :: path) r) := h
    simp only [maxLoop, ptr_node, if_neg notNil, get_at h.at_node, ok_bind]
    rw [ihr right (by omega), Tree.toList_node]
    rcases last : r.toList.getLast? with _ | x <;> simp [List.getLast?_append, List.getLast?_cons, last]

theorem Nodes.max_spec (h : Nodes t nodes) :
    t.max = .ok ((nodes.getLast?.map fun x => .at x.1).getD t.nil) := by
  obtain ⟨tree, holds, rfl⟩ := h
  have whole : Holds t (Path.fill [] tree) := holds
  rw [Rbtree.max, holds.root, maxLoop_spec whole holds.length_lt]
  cases tree with
  | nil => rw [holds.nil]; rfl
  | node c l i e r => simp [List.getLast?_append, List.getLast?_cons]

/-- Where the climb from a place ends: at the first node above whose left subtree it comes from, and
before that at the root. -/
def climbs : NodePath V → Ptr
  | [] => .at 0
  | [f] => .at f.id
  | f :: g :: path => if f.dir = .left then .at f.id else climbs (g :: path)

theorem climbs_after {path : NodePath V} {j : Nat} {f : Entry V} {rest : List (Nat × Entry V)}
    (next : Path.after path = (j, f) :: rest) : climbs path = .at j := by
  induction path with
  | nil => cases next
  | cons g path ih =>
    rw [Path.after_cons, Frame.after] at next
    cases side : g.dir with
    | left =>
      rw [side] at next
      cases next
      cases path with
      | nil => rfl
      | cons => exact if_pos side
    | right =>
      rw [side] at next
      cases path with
      | nil => cases next
      | cons =>
        rw [climbs, side]
        exact ih next

/-- From the right spine the climb ends at the root. -/
theorem climbs_last {f : Frame Nat (Entry V)} {path : NodePath V} (x : NodeTree V)
    (last : Path.after (f :: path) = []) : climbs (f :: path) = ptr (Path.fill (f :: path) x) := by
  induction path generalizing f x with
  | nil => exact (ptr_plug f x).symm
  | cons g path ih =>
    rw [Path.after_cons, Frame.after] at last
    cases side : f.dir with
    | left =>
      rw [side] at last
      cases last
    | right =>
      rw [side] at last
      rw [climbs, side]
      exact ih (f.plug x) last

theorem successorUp_spec {x : NodeTree V} {path : NodePath V} {fuel : Nat}
    (h : Holds t (Path.fill path x)) (some_ : x ≠ .nil) (enough : path.length < fuel) :
    t.successorUp fuel (ptr x) (above path) = .ok (climbs path) := by
  induction path generalizing x fuel with
  | nil =>
    obtain ⟨fuel, rfl⟩ : ∃ f, fuel = f + 1 := ⟨fuel - 1, by omega⟩
    obtain ⟨n, here, _, right, _⟩ := h.sentinel
    cases x with
    | nil => exact absurd rfl some_
    | node c l i e r =>
      have notRoot : Ptr.at 0 ≠ t.root := by
        rw [h.root, ← h.nil]
        exact (h.not_nil (by simp)).symm
      have outside : n.right ≠ .at i := by
        rw [right]
        intro same
        cases same
      simp only [successorUp, above, if_neg notRoot, get_at here, ok_bind, ptr_node, if_neg outside,
        pure_ok]
      rfl
  | cons f path ih =>
    obtain ⟨fuel, rfl⟩ : ∃ f, fuel = f + 1 := ⟨fuel - 1, by omega⟩
    have plugged : Holds t (Path.fill path (f.plug x)) := h
    cases path with
    | nil =>
      have root : Ptr.at f.id = t.root := by rw [h.root, Path.fill_cons, Path.fill_nil, ptr_plug]
      exact if_pos root
    | cons g path =>
      have notRoot : Ptr.at f.id ≠ t.root := by
        rw [← ptr_plug f x]
        exact plugged.not_root
      have read := get_at (Holds.at_join (d := f.dir) (c := f.color) (l := x) (r := f.sib) plugged)
      rw [successorUp, above, if_neg notRoot, read, ok_bind, climbs]
      have apart := Holds.children_ne (d := f.dir) (c := f.color) (x := x) (y := f.sib) plugged
        (.inl some_)
      cases side : f.dir with
      | left =>
        have other : (cell .left (ptr x) (ptr f.sib) (above (g :: path)) f.color f.val).right ≠ ptr x :=
          apart.symm
        rw [if_neg other, pure_ok]
        rfl
      | right =>
        have same : (cell .right (ptr x) (ptr f.sib) (above (g :: path)) f.color f.val).right = ptr x :=
          rfl
        rw [if_pos same]
        have next := ih plugged Tree.join_ne_nil (Nat.lt_of_succ_lt_succ enough)
        rw [ptr_plug] at next
        exact next

/-- The next node of the list, and behind the last one the root, or nil at the root itself. -/
theorem Nodes.successor_spec (h : Nodes t nodes) (member : (i, e) ∈ nodes) : ∃ front back,
    nodes = front ++ (i, e) :: back ∧
    (∀ j f rest, back = (j, f) :: rest → t.successor (.at i) = .ok (.at j)) ∧
      (back = [] → t.successor (.at i) = .ok (if t.root = .at i then t.nil else t.root)) := by
  have notNil := h.not_nil member
  obtain ⟨tree, holds, rfl⟩ := h
  obtain ⟨path, c, l, r, rfl⟩ := exists_place member
  refine ⟨Path.before path ++ l.toList, r.toList ++ Path.after path, by simp [Path.toList_fill], ?_⟩
  have start : t.successor (.at i) = if ptr r = t.nil then t.successorUp t.fresh (.at i) (above path)
      else t.minLoop t.fresh (ptr r) (ptr r) := by
    simp only [successor, if_neg notNil, get_at holds.at_node, ok_bind]
  rw [start]
  cases r with
  | nil =>
    have climb := successorUp_spec holds Tree.node_ne_nil holds.path_lt
    rw [ptr_node] at climb
    have none : ptr (RedBlack.Tree.nil : NodeTree V) = t.nil := holds.nil.symm
    rw [if_pos none, climb, Tree.toList_nil, List.nil_append]
    refine ⟨fun j f rest next => by rw [climbs_after next], fun last => ?_⟩
    rw [holds.root, holds.nil]
    cases path with
    | nil => exact (if_pos rfl).symm ▸ rfl
    | cons f path =>
      have notRoot := holds.not_root
      rw [holds.root, ptr_node] at notRoot
      rw [if_neg notRoot.symm, climbs_last _ last]
  | node rc rl ri re rr =>
    have below : Holds t (Path.fill (⟨.right, c, i, e, l⟩ :: path) (.node rc rl ri re rr)) := holds
    have someRight : ptr (RedBlack.Tree.node rc rl ri re rr) ≠ t.nil :=
      holds.not_nil (mem_ids_fill.mpr (.inl (by simp)))
    have enough : (RedBlack.Tree.node rc rl ri re rr).ids.length < t.fresh := by
      have fits := holds.length_lt
      have whole := (ids_fill path (.node c l i e (.node rc rl ri re rr))).length_eq
      simp only [Tree.ids_node, List.length_append, List.length_cons] at whole ⊢
      omega
    rw [if_neg someRight, minLoop_spec below enough]
    constructor
    · intro j f rest next
      rcases first : (RedBlack.Tree.node rc rl ri re rr).toList with _ | ⟨x, others⟩
      · simp at first
      · rw [first] at next
        cases next
        rfl
    · intro none
      simp at none

section
variable {front back : List (Nat × Entry V)}

/-- The pointer to the first of some nodes, or nil. -/
def first (t : Rbtree V) (nodes : List (Nat × Entry V)) : Ptr :=
  (nodes.head?.map fun x => .at x.1).getD t.nil

theorem Nodes.min_first (h : Nodes t nodes) : t.min = .ok (first t nodes) := by
  cases nodes with
  | nil => exact h.min_nil
  | cons x rest => exact h.min_cons

theorem Nodes.root_mem (h : Nodes t nodes) (some_ : nodes ≠ []) :
    ∃ r e, t.root = .at r ∧ (r, e) ∈ nodes := by
  obtain ⟨tree, holds, rfl⟩ := h
  cases tree with
  | nil => exact absurd rfl some_
  | node c l i e r => exact ⟨i, e, holds.root, by simp⟩

theorem Nodes.successor_eq (h : Nodes t (front ++ (i, e) :: back)) : t.successor (.at i) =
    .ok (if back = [] ∧ t.root ≠ .at i then t.root else first t back) := by
  have distinct : (front ++ (i, e) :: back).Nodup := List.Nodup.of_map Prod.fst h.distinct
  obtain ⟨front', back', whole, next, last⟩ := h.successor_spec (by simp : (i, e) ∈ _)
  have apart := distinct
  rw [whole, List.nodup_append, List.nodup_cons] at apart
  obtain ⟨_, rfl⟩ : front = front' ∧ back = back' := by
    obtain ⟨same, _, same'⟩ := (List.append_cons_inj_of_notMem
      (fun member => apart.2.2 _ member _ List.mem_cons_self rfl) apart.2.1.1).mp whole.symm
    exact ⟨same.symm, same'.symm⟩
  cases back with
  | nil =>
    rw [last rfl]
    by_cases root : t.root = .at i
    · simp [root, first]
    · simp [root]
  | cons x rest =>
    rw [next x.1 x.2 rest rfl]
    simp [first]

/-- A walk along the nodes stops behind the last one when that is the root. -/
theorem Nodes.traverse_to (h : Nodes t (front ++ back))
    (root : ∀ x rest, back = rest ++ [x] → t.root = .at x.1) :
    t.traverse (back.length + 1) (first t back) = .ok (back.map fun x => .at x.1) := by
  induction back generalizing front with
  | nil => exact if_pos (.inl rfl)
  | cons x rest ih =>
    obtain ⟨i, e⟩ := x
    have notNil : ¬ (Ptr.at i = t.nil ∨ Ptr.at i = .null) := by
      rintro (same | same)
      · exact h.not_nil (i := i) (e := e) (by simp) same
      · cases same
    have step : ¬ (rest = [] ∧ t.root ≠ .at i) := by
      rintro ⟨rfl, other⟩
      exact other (root (i, e) [] rfl)
    have onwards : Nodes t ((front ++ [(i, e)]) ++ rest) := by simpa using h
    have walked := ih onwards fun x before same => root x ((i, e) :: before) (by rw [same]; rfl)
    change t.traverse (rest.length + 1 + 1) (.at i) = _
    rw [traverse, if_neg notNil, h.successor_eq, if_neg step, ok_bind, walked]
    rfl

/-- When the last node is another than the root, the walk starts again at the root. -/
theorem Nodes.traverse_endless (h : Nodes t (front ++ [(i, e)])) (notRoot : t.root ≠ .at i) (fuel : Nat)
    {j : Nat} {f : Entry V} (member : (j, f) ∈ front ++ [(i, e)]) :
    t.traverse fuel (.at j) = .error .endless := by
  induction fuel generalizing j f with
  | zero => rfl
  | succ fuel ih =>
    have notNil : ¬ (Ptr.at j = t.nil ∨ Ptr.at j = .null) := by
      rintro (same | same)
      · exact h.not_nil member same
      · cases same
    obtain ⟨before, back, whole⟩ := List.append_of_mem member
    have next := h
    rw [whole] at next
    rw [traverse, if_neg notNil, next.successor_eq, ok_bind]
    cases back with
    | nil =>
      obtain ⟨_, same⟩ := List.append_inj' whole rfl
      cases same
      obtain ⟨r, g, root, inside⟩ := h.root_mem (by simp)
      rw [if_pos ⟨rfl, notRoot⟩, root, ih inside, error_bind]
    | cons x rest =>
      have inside : (x.1, x.2) ∈ front ++ [(i, e)] := by
        rw [whole]
        simp
      have onwards : ¬ (x :: rest = [] ∧ t.root ≠ .at j) := by
        rintro ⟨none, _⟩
        cases none
      rw [if_neg onwards]
      change (do return Ptr.at j :: (← t.traverse fuel (.at x.1))) = _
      rw [ih inside, error_bind]

theorem Nodes.max_concat (h : Nodes t (front ++ [(i, e)])) : t.max = .ok (.at i) := by
  rw [h.max_spec, List.getLast?_concat]
  rfl

theorem Search.max_iff (h : Search t (front ++ (i, e) :: back)) : t.max = .ok (.at i) ↔ back = [] := by
  have distinct := h.weaken.distinct
  rw [List.map_append, List.map_cons, List.nodup_append, List.nodup_cons] at distinct
  constructor
  · intro last
    rcases List.eq_nil_or_concat' back with none | ⟨init, x, rfl⟩
    · exact none
    · have whole : Nodes t ((front ++ (i, e) :: init) ++ [x]) := by simpa using h.weaken
      have most := whole.max_concat
      have same : x.1 = i := Ptr.at.inj (Except.ok.inj (most.symm.trans last))
      exact absurd (by simp [← same]) distinct.2.1.1
  · rintro rfl
    exact h.weaken.max_concat

theorem Search.isNext_iff (h : Search t (front ++ (i, e) :: back)) :
    IsNext t (front ++ (i, e) :: back) e (if back = [] ∧ t.root ≠ .at i then t.root else first t back) ↔
      back ≠ [] ∨ t.root = .at i := by
  have ordered := h.ordered
  rw [keys_append, keys_cons, List.pairwise_append, List.pairwise_cons] at ordered
  obtain ⟨_, ⟨above, later⟩, below⟩ := ordered
  have lower (x : Nat × Entry V) (member : x ∈ front) : x.2.key < e.key :=
    below _ (List.mem_map_of_mem (f := fun x => x.2.key) member) _ List.mem_cons_self
  cases back with
  | nil =>
    have most (x : Nat × Entry V) (member : x ∈ front ++ [(i, e)]) : x.2.key ≤ e.key := by
      rcases List.mem_append.mp member with old | last
      · exact (lower x old).le
      · rw [List.mem_singleton.mp last]
    by_cases root : t.root = .at i
    · rw [if_neg fun both => both.2 root]
      exact iff_of_true (.inr ⟨.inl rfl, most⟩) (.inr root)
    · rw [if_pos ⟨rfl, root⟩]
      refine iff_of_false ?_ (by simp [root])
      obtain ⟨r, g, same, inside⟩ := h.weaken.root_mem (by simp)
      rintro (⟨j, f, _, member, greater, _⟩ | ⟨nil | null, _⟩)
      · exact absurd greater (not_lt.mpr (most (j, f) member))
      · rw [same] at nil
        exact h.weaken.not_nil inside nil
      · rw [same] at null
        cases null
  | cons x rest =>
    have onwards : ¬ (x :: rest = [] ∧ t.root ≠ .at i) := by
      rintro ⟨none, _⟩
      cases none
    rw [if_neg onwards]
    refine iff_of_true (.inl ⟨x.1, x.2, rfl, by simp, above _ List.mem_cons_self, ?_⟩) (.inl (by simp))
    intro y member greater
    rw [keys_cons, List.pairwise_cons] at later
    rcases List.mem_append.mp member with old | new
    · exact absurd greater (not_lt.mpr (lower y old).le)
    · rcases List.mem_cons.mp new with rfl | new
      · exact absurd greater (lt_irrefl _)
      · rcases List.mem_cons.mp new with rfl | new
        · exact le_rfl
        · exact (later.1 _ (List.mem_map_of_mem (f := fun x => x.2.key) new)).le

end

/-- For every valid tree: `rbtree_successor` of a node is the next one in the order of the keys exactly
when the node is not the greatest, or is the root. A walk from `rbtree_min` on meets every node once
and stops exactly when the greatest node is the root, or there is none. -/
theorem successor_next_iff (h : Search t nodes) :
    (∀ i e, (i, e) ∈ nodes → ∃ q, t.successor (.at i) = .ok q ∧
      (IsNext t nodes e q ↔ t.max ≠ .ok (.at i) ∨ t.root = .at i)) ∧
    ((∃ least fuel, t.min = .ok least ∧
      t.traverse fuel least = .ok (nodes.map fun x => .at x.1)) ↔ t.max = .ok t.root) := by
  constructor
  · intro i e member
    obtain ⟨front, back, rfl⟩ := List.append_of_mem member
    refine ⟨_, h.weaken.successor_eq, ?_⟩
    rw [h.isNext_iff, ne_eq, ← h.max_iff]
  · have whole : Nodes t ([] ++ nodes) := h.weaken
    have walks := whole.traverse_to
    rcases List.eq_nil_or_concat' nodes with rfl | ⟨init, x, rfl⟩
    · have empty : t.max = .ok t.root := by
        obtain ⟨tree, holds, none⟩ := h.weaken
        have most := h.weaken.max_spec
        cases tree with
        | nil => rw [most, holds.root]; exact congrArg _ holds.nil
        | node => simp at none
      refine iff_of_true ⟨_, 1, h.weaken.min_first, walks fun x rest none => ?_⟩ empty
      simp at none
    · have most := h.weaken.max_concat (i := x.1) (e := x.2)
      rw [h.weaken.min_first]
      by_cases root : t.root = .at x.1
      · refine iff_of_true ⟨_, _, rfl, walks fun y rest same => ?_⟩ (by rw [most, root])
        cases (List.append_inj' same rfl).2
        exact root
      · refine iff_of_false ?_ fun same => root (Except.ok.inj (most.symm.trans same)).symm
        rintro ⟨least, fuel, start, walked⟩
        obtain ⟨j, f, start', inside⟩ : ∃ j f, first t (init ++ [x]) = .at j ∧
            (j, f) ∈ init ++ [x] := by
          cases init with
          | nil => exact ⟨x.1, x.2, rfl, List.mem_cons_self⟩
          | cons y init => exact ⟨y.1, y.2, rfl, List.mem_cons_self⟩
        cases start
        rw [start', h.weaken.traverse_endless root fuel inside] at walked
        cases walked

/-- Of the keys 20 and 10 the greatest is the root: the walk meets both nodes and stops. -/
theorem successor_next_two : ∃ t : Rbtree Nat, (create 0).insertAll [(20, 0), (10, 0)] = .ok t ∧
    (∃ q, t.successor (.at 2) = .ok q ∧ IsNext t [(2, ⟨10, 0⟩), (1, ⟨20, 0⟩)] ⟨10, 0⟩ q) ∧
    (∃ q, t.successor (.at 1) = .ok q ∧ IsNext t [(2, ⟨10, 0⟩), (1, ⟨20, 0⟩)] ⟨20, 0⟩ q) ∧
    ∃ least fuel, t.min = .ok least ∧ t.traverse fuel least = .ok [.at 2, .at 1] := by
  let tree : NodeTree Nat := .node .black (.node .red .nil 2 ⟨10, 0⟩ .nil) 1 ⟨20, 0⟩ .nil
  have done : treeAll 1 .nil [(20, 0), (10, 0)] = some tree := rfl
  obtain ⟨t, run, holds, -⟩ := (create_holds 0).insertAll rfl done
  have search : Search t ([(2, ⟨10, 0⟩)] ++ [(1, ⟨20, 0⟩)]) := ⟨tree, holds, by decide, by decide, rfl⟩
  have root : t.root = .at 1 := holds.root
  have most : t.max = .ok (.at 1) := search.weaken.max_concat
  obtain ⟨q, first, next⟩ := (successor_next_iff search).1 2 ⟨10, 0⟩ (by simp)
  obtain ⟨q', last, none⟩ := (successor_next_iff search).1 1 ⟨20, 0⟩ (by simp)
  have other : t.max ≠ .ok (.at 2) := by
    rw [most]
    decide
  exact ⟨t, run, ⟨q, first, next.mpr (.inl other)⟩, ⟨q', last, none.mpr (.inr root)⟩,
    (successor_next_iff search).2.mpr (by rw [most, root])⟩

/-- With the keys 10 and 20 the root has a right child and no other. Behind it comes the root again,
and a walk from the least node on never stops. -/
theorem successor_wraps : ∃ t : Rbtree Nat, (create 0).insertAll [(10, 0), (20, 0)] = .ok t ∧
    Search t [(1, ⟨10, 0⟩), (2, ⟨20, 0⟩)] ∧ t.successor (.at 2) = .ok (.at 1) ∧
    ¬ IsNext t [(1, ⟨10, 0⟩), (2, ⟨20, 0⟩)] ⟨20, 0⟩ (.at 1) ∧
    t.min = .ok (.at 1) ∧ ∀ fuel, t.traverse fuel (.at 1) = .error .endless := by
  let entries : List (Int × Nat) := [(10, 0), (20, 0)]
  have done : treeAll 1 .nil entries = some (.node .black .nil 1 ⟨10, 0⟩
    (.node .red .nil 2 ⟨20, 0⟩ .nil)) := rfl
  obtain ⟨t, run, holds, -⟩ := (create_holds 0).insertAll rfl done
  have root : t.root = .at 1 := holds.root
  have other : t.root ≠ .at 2 := by
    rw [root]
    decide
  have search : Search t ([(1, ⟨10, 0⟩)] ++ [(2, ⟨20, 0⟩)]) := ⟨_, holds, by decide, by decide, rfl⟩
  have next := search.weaken.successor_eq
  have wrong := search.isNext_iff
  rw [if_pos ⟨rfl, other⟩, root] at next wrong
  refine ⟨t, run, search, next, fun right => ?_, search.weaken.min_first,
    fun fuel => search.weaken.traverse_endless (f := ⟨10, 0⟩) other fuel (by simp)⟩
  rcases wrong.mp right with some_ | same
  · exact some_ rfl
  · cases same

end Yamq.Rbtree
