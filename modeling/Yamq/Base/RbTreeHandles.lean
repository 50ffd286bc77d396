import Yamq.Base.RbTreeContents
import Yamq.Lib.Transition

/-! The node pointers that `rbtree_insert` returned and that its callers keep until they pass them to
`rbtree_delete`. -/
namespace Yamq

open RedBlack Transition

/-- A pointer that a caller keeps, with the key and value of its insertion. `known` says that the tree
had the key already. -/
structure NodeHandle (V : Type) where
  addr : Nat
  entry : Entry V
  known : Bool

structure Handles (V : Type) where
  tree : Rbtree V
  live : List (NodeHandle V)

inductive HandleOp (V : Type) where
  | insert (key : Int) (val : V)
  | delete (addr : Nat)

variable {V : Type}

/-- The search of `_rbtree_insert_node` ends at a node with the key. -/
def Rbtree.knows (t : Rbtree V) (key : Int) : Bool :=
  match t.findPlace key t.fresh t.root t.root with
  | .ok none => true
  | _ => false

namespace NodeHandle

def node (h : NodeHandle V) : Nat × Entry V := (h.addr, h.entry)

/-- What a caller may rely on: the node is in the tree with the key and value of the insertion or,
for a key that the tree had, may be deleted. -/
def Valid (t : Rbtree V) (h : NodeHandle V) : Prop :=
  match h.known with
  | false => t.InTree h.addr h.entry
  | true => ∃ t', t.delete (.at h.addr) = .ok t'

end NodeHandle

namespace Handles

def start (unset : V) : Handles V := ⟨.create unset, []⟩

/-- The operations that end without a fault. Only a handle that is still live is deleted. -/
def next (s : Handles V) : HandleOp V → Option (Handles V)
  | .insert key val =>
    match s.tree.insert key val with
    | .ok (tree, .at addr) => some ⟨tree, ⟨addr, ⟨key, val⟩, s.tree.knows key⟩ :: s.live⟩
    | _ => none
  | .delete addr =>
    if addr ∈ s.live.map NodeHandle.addr then
      match s.tree.delete (.at addr) with
      | .ok tree => some ⟨tree, s.live.filter fun h => h.addr ≠ addr⟩
      | .error _ => none
    else none

def Steps (s : Handles V) (op : HandleOp V) (s' : Handles V) : Prop := s.next op = some s'

def AllValid (s : Handles V) : Prop := ∀ h ∈ s.live, h.Valid s.tree

/-- A new key is inserted, or a node with at most one child is deleted. -/
def Careful (s : Handles V) : HandleOp V → Prop
  | .insert key _ => s.tree.knows key = false
  | .delete addr => s.tree.Lone addr

/-- In addition, no deletion takes the last case of the repair on the right side. -/
def Balancing (s : Handles V) : HandleOp V → Prop
  | .insert key _ => s.tree.knows key = false
  | .delete addr => s.tree.Lone addr ∧ s.tree.Straight addr

variable {t : Rbtree V} {nodes : List (Nat × Entry V)} {s s' : Handles V} {op : HandleOp V}

theorem next_insert {key : Int} {val : V} {i : Nat} (run : s.tree.insert key val = .ok (t, .at i)) :
    s.next (.insert key val) = some ⟨t, ⟨i, ⟨key, val⟩, s.tree.knows key⟩ :: s.live⟩ := by
  simp only [next, run]

theorem next_delete {i : Nat} (live : i ∈ s.live.map NodeHandle.addr)
    (run : s.tree.delete (.at i) = .ok t) :
    s.next (.delete i) = some ⟨t, s.live.filter fun h => h.addr ≠ i⟩ := by
  simp only [next, if_pos live, run]

theorem knows_iff (h : t.Sorted nodes) {key : Int} :
    t.knows key = true ↔ key ∈ keys Entry.key nodes := by
  obtain ⟨tree, holds, _, ordered, rfl⟩ := h
  have search := holds.search key
  have none_iff : locate Entry.key key tree [] = none ↔ key ∈ keys Entry.key tree.toList :=
    locate_none ordered
  rw [← none_iff]
  cases place : locate Entry.key key tree [] with
  | none =>
    rw [place, Option.map_none] at search
    simp [Rbtree.knows, search]
  | some path =>
    rw [place, Option.map_some] at search
    simp [Rbtree.knows, search]

/-- The node of a known key was never given pointers, and deleting it follows them. -/
theorem delete_outside (nil : t.nil = .at 0) (e : Entry V) :
    (t.alloc e).delete (.at t.fresh) = .error .wildPointer := by
  have read : (t.alloc e).get (.at t.fresh) = .ok ⟨.wild, .wild, .wild, .black, e⟩ := by
    have here : (t.alloc e).heap t.fresh = some ⟨.wild, .wild, .wild, .black, e⟩ :=
      Function.update_self ..
    simp only [Rbtree.get, here]
  have set : Ptr.wild ≠ (t.alloc e).nil := by
    change Ptr.wild ≠ t.nil
    simp [nil]
  have target : (t.alloc e).delTarget (.at t.fresh) = .error .wildPointer := by
    simp only [Rbtree.delTarget, read, ok_bind, if_pos (And.intro set set)]
    rfl
  rw [Rbtree.delete, target, error_bind]

/-- The live handles are the nodes of the tree. -/
structure Held (s : Handles V) (nodes : List (Nat × Entry V)) : Prop where
  sorted : s.tree.Sorted nodes
  new : ∀ h ∈ s.live, h.known = false
  denotes : (s.live.map NodeHandle.node).Perm nodes

theorem start_held (unset : V) : Held (start unset) [] :=
  ⟨(Rbtree.create_search unset).sorted, nofun, .nil⟩

theorem Held.live_iff (h : Held s nodes) {i : Nat} :
    i ∈ s.live.map NodeHandle.addr ↔ ∃ e, (i, e) ∈ nodes := by
  simp only [← h.denotes.mem_iff, List.mem_map, NodeHandle.node, Prod.mk.injEq]
  constructor
  · rintro ⟨handle, member, same⟩
    exact ⟨handle.entry, handle, member, same, rfl⟩
  · rintro ⟨_, handle, member, same, _⟩
    exact ⟨handle, member, same⟩

theorem Held.allValid (h : Held s nodes) : s.AllValid := by
  intro handle member
  have inTree : handle.node ∈ nodes := h.denotes.mem_iff.mp (List.mem_map_of_mem member)
  rw [NodeHandle.Valid, h.new handle member]
  exact h.sorted.weaken.inTree_iff.mpr inTree

theorem Held.inserts (h : Held s nodes) {key : Int} (val : V) (new : s.tree.knows key = false) :
    ∃ s' nodes', s.next (.insert key val) = some s' ∧ Held s' nodes' ∧
      (s.tree.Search nodes → s'.tree.Search nodes') := by
  have free : key ∉ keys Entry.key nodes := by
    rw [← knows_iff h.sorted, new]
    nofun
  obtain ⟨tree, front, back, run, rfl, sorted, _, balanced⟩ := h.sorted.insert val free
  refine ⟨_, _, next_insert run, ⟨sorted, ?_, ?_⟩, balanced⟩
  · intro handle member
    rcases List.mem_cons.mp member with rfl | old
    · exact new
    · exact h.new handle old
  · exact (h.denotes.cons _).trans List.perm_middle.symm

theorem Held.inserts_known (h : Held s nodes) {key : Int} (val : V) (known : s.tree.knows key = true) :
    ∃ s', s.next (.insert key val) = some s' ∧ ¬ s'.AllValid := by
  obtain ⟨run, _⟩ := h.sorted.insert_known val ((knows_iff h.sorted).mp known)
  refine ⟨_, next_insert run, fun valid => ?_⟩
  have here := valid _ List.mem_cons_self
  rw [NodeHandle.Valid, known] at here
  obtain ⟨tree, holds, _⟩ := h.sorted
  obtain ⟨t', deleted⟩ := here
  cases (delete_outside holds.nil ⟨key, val⟩).symm.trans deleted

theorem filter_addr {front back : List (Nat × Entry V)} {i : Nat} {e : Entry V}
    (distinct : ((front ++ (i, e) :: back).map Prod.fst).Nodup) :
    (front ++ (i, e) :: back).filter (fun x => x.1 ≠ i) = front ++ back := by
  rw [List.map_append, List.map_cons, List.nodup_append, List.nodup_cons] at distinct
  obtain ⟨_, ⟨right, _⟩, left⟩ := distinct
  have keepsFront : front.filter (fun x => x.1 ≠ i) = front := by
    rw [List.filter_eq_self]
    intro x member
    exact decide_eq_true (left x.1 (List.mem_map_of_mem member) i List.mem_cons_self)
  have keepsBack : back.filter (fun x => x.1 ≠ i) = back := by
    rw [List.filter_eq_self]
    intro x member
    exact decide_eq_true fun same => right (List.mem_map.mpr ⟨x, member, same⟩)
  rw [List.filter_append, List.filter_cons_of_neg (by simp), keepsFront, keepsBack]

/-- Deleting a live handle. With two children the address of the next node goes, whose handle stays
with the caller. -/
theorem Held.deletes (h : Held s nodes) {i : Nat} {e : Entry V} (member : (i, e) ∈ nodes) :
    (s.tree.delete (.at i) = .error .nullPointer ∧ ¬ s.tree.Search nodes) ∨
    ∃ s', s.next (.delete i) = some s' ∧
      (s.tree.Lone i → ∃ nodes', Held s' nodes' ∧
        (s.tree.Search nodes → s.tree.Straight i → s'.tree.Search nodes')) ∧
      (¬ s.tree.Lone i → ¬ s'.AllValid) := by
  have distinct := h.sorted.weaken.distinct
  have live : i ∈ s.live.map NodeHandle.addr := h.live_iff.mpr ⟨e, member⟩
  rcases h.sorted.delete member with fails | ⟨tree, front, back, run, rfl, _, one, two, keeps⟩
  · exact .inl fails
  · refine .inr ⟨_, next_delete live run, fun lone => ?_, fun full valid => ?_⟩
    · refine ⟨front ++ back, ⟨one lone, fun handle left => ?_, ?_⟩, fun search straight => ?_⟩
      · exact h.new handle (List.mem_of_mem_filter left)
      · have filtered := h.denotes.filter fun x => x.1 ≠ i
        rw [filter_addr distinct, List.filter_map] at filtered
        exact filtered
      · exact keeps search straight _ (one lone).weaken
    · obtain ⟨other, rest, rfl, left⟩ := two full
      rw [List.map_append, List.map_cons, List.map_cons, List.nodup_append, List.nodup_cons,
        List.nodup_cons] at distinct
      obtain ⟨_, ⟨here, last, _⟩, apart⟩ := distinct
      have apartHere : other.1 ≠ i := fun same => here (same ▸ List.mem_cons_self)
      -- the handle of the next node
      have inTree : other ∈ s.live.map NodeHandle.node := h.denotes.mem_iff.mpr (by simp)
      obtain ⟨handle, stays, rfl⟩ := List.mem_map.mp inTree
      have kept := valid handle (List.mem_filter.mpr ⟨stays, decide_eq_true apartHere⟩)
      rw [NodeHandle.Valid, h.new handle stays] at kept
      have gone := List.mem_map_of_mem (f := Prod.fst) (left.weaken.inTree_iff.mp kept)
      simp only [List.map_append, List.map_cons, List.mem_append, List.mem_cons] at gone
      rcases gone with first | same | later
      · exact apart _ first handle.addr (by simp [NodeHandle.node]) rfl
      · exact apartHere same
      · exact last later

theorem Held.step (h : Held s nodes) (careful : Careful s op) (taken : Steps s op s') :
    ∃ nodes', Held s' nodes' ∧
      (s.tree.Search nodes → Balancing s op → s'.tree.Search nodes') := by
  cases op with
  | insert key val =>
    obtain ⟨s'', nodes', run, held, balanced⟩ := h.inserts val careful
    cases run.symm.trans taken
    exact ⟨nodes', held, fun search _ => balanced search⟩
  | delete i =>
    have live : i ∈ s.live.map NodeHandle.addr := by
      by_contra dead
      have refused : s.next (.delete i) = none := if_neg dead
      cases refused.symm.trans taken
    obtain ⟨e, member⟩ := h.live_iff.mp live
    rcases h.deletes member with ⟨fails, _⟩ | ⟨s'', run, one, _⟩
    · simp [Steps, next, fails] at taken
    · cases run.symm.trans taken
      obtain ⟨nodes', held, balanced⟩ := one careful
      exact ⟨nodes', held, fun search balancing => balanced search balancing.2⟩

theorem Balancing.careful (h : Balancing s op) : Careful s op := by
  cases op with
  | insert => exact h
  | delete => exact h.1

def Kept (s : Handles V) : Prop := ∃ nodes, Held s nodes

def KeptBalanced (s : Handles V) : Prop := ∃ nodes, Held s nodes ∧ s.tree.Search nodes

theorem careful_kept {unset : V} (run : Reaches Steps Careful (start unset) s) : Kept s := by
  refine run.invariant ⟨_, start_held unset⟩ ?_
  rintro _ _ _ ⟨_, h⟩ careful taken
  obtain ⟨nodes', held, _⟩ := h.step careful taken
  exact ⟨nodes', held⟩

theorem balancing_kept {unset : V} (run : Reaches Steps Balancing (start unset) s) :
    KeptBalanced s := by
  refine run.invariant ⟨_, start_held unset, Rbtree.create_search unset⟩ ?_
  rintro _ _ _ ⟨_, h, search⟩ balancing taken
  obtain ⟨nodes', held, keeps⟩ := h.step balancing.careful taken
  exact ⟨nodes', held, keeps search balancing⟩

/-- In every run that inserts new keys only and deletes only nodes with at most one child, all live
handles are valid. The next operation keeps them so exactly when it is of that kind too: an insertion
always succeeds, and a deletion succeeds or dereferences NULL, the latter only after one that took the
last case of the repair on the right side. -/
theorem handles_stay_valid (unset : V) (s : Handles V) (run : Reaches Steps Careful (start unset) s) :
    s.AllValid ∧
    (∀ key val, ∃ s', s.next (.insert key val) = some s' ∧
      (s'.AllValid ↔ s.tree.knows key = false)) ∧
    (∀ h ∈ s.live, s.tree.delete (.at h.addr) = .error .nullPointer ∨
      ∃ s', s.next (.delete h.addr) = some s' ∧ (s'.AllValid ↔ s.tree.Lone h.addr)) ∧
    (Reaches Steps Balancing (start unset) s → ∀ h ∈ s.live, ∃ s',
      s.next (.delete h.addr) = some s') := by
  obtain ⟨nodes, held⟩ := careful_kept run
  refine ⟨held.allValid, fun key val => ?_, fun h live => ?_, fun balancing h live => ?_⟩
  · cases new : s.tree.knows key with
    | false =>
      obtain ⟨s', _, inserted, held', _⟩ := held.inserts val new
      exact ⟨s', inserted, iff_of_true held'.allValid rfl⟩
    | true =>
      obtain ⟨s', inserted, invalid⟩ := held.inserts_known val new
      exact ⟨s', inserted, iff_of_false invalid nofun⟩
  · obtain ⟨e, member⟩ := held.live_iff.mp (List.mem_map_of_mem live)
    rcases held.deletes member with ⟨fails, _⟩ | ⟨s', deleted, one, two⟩
    · exact .inl fails
    · refine .inr ⟨s', deleted, fun valid => ?_, fun lone => ?_⟩
      · by_contra full
        exact two full valid
      · obtain ⟨_, held', _⟩ := one lone
        exact held'.allValid
  · obtain ⟨nodes, held, search⟩ := balancing_kept balancing
    obtain ⟨e, member⟩ := held.live_iff.mp (List.mem_map_of_mem live)
    rcases held.deletes member with ⟨_, invalid⟩ | ⟨s', deleted, _⟩
    · exact absurd search invalid
    · exact ⟨s', deleted⟩

/-- Two keys, the first of which is deleted again. -/
theorem handles_stay_valid_twice : ∃ s : Handles Nat,
    Reaches Steps Careful (start 0) s ∧ s.live.length = 1 ∧ s.AllValid := by
  let check (s : Handles Nat) : HandleOp Nat → Bool
    | .insert key _ => !s.tree.knows key
    | .delete addr => match s.tree.get (.at addr) with
      | .ok n => n.left = s.tree.nil
      | .error _ => false
  have sound (s : Handles Nat) (op : HandleOp Nat) (checked : check s op = true) : Careful s op := by
    cases op with
    | insert key val =>
      rw [Careful, ← Bool.not_eq_true']
      exact checked
    | delete addr =>
      cases read : s.tree.get (.at addr) with
      | error f => simp [check, read] at checked
      | ok n => exact ⟨n, read, .inl (by simpa [check, read] using checked)⟩
  have made : ([.insert 20 1, .insert 30 2, .delete 1].foldlM
      (fun s a => if check s a then next s a else none) (start 0)).any
        fun s => s.live.length = 1 := by
    decide +kernel
  obtain ⟨s, run, one⟩ := (Option.any_eq_true _ _).mp made
  have reached := Reaches.of_checked next check sound _ run
  exact ⟨s, reached, of_decide_eq_true one, (handles_stay_valid 0 s reached).1⟩

/-- Deleting the root with its two children frees the node of the third handle. The handle of a key
that the tree has cannot be deleted. And of four nodes the deletion of the third, on the right of the
root, leaves a tree in which the deletion of the second dereferences NULL. -/
theorem handles_dangle :
    (∃ s : Handles Nat, [.insert 20 1, .insert 10 2, .insert 30 3, .delete 1].foldlM next (start 0) =
      some s ∧ ¬ s.AllValid) ∧
    (∃ s : Handles Nat, [.insert 10 1, .insert 10 2].foldlM next (start 0) = some s ∧ ¬ s.AllValid) ∧
    ∃ s : Handles Nat, [.insert 31 1, .insert 37 2, .insert 55 3, .insert 26 4, .delete 3].foldlM next
      (start 0) = some s ∧ ∃ h ∈ s.live, s.next (.delete h.addr) = none := by
  have first : ([.insert 20 1, .insert 10 2, .insert 30 3, .delete 1].foldlM next (start 0)).any
      fun s => s.live.any fun h => h.known = false ∧ s.tree.heap h.addr = none := by
    decide +kernel
  have second : ([.insert 10 1, .insert 10 2].foldlM next (start 0)).any
      fun s => s.live.any fun h => h.known = true ∧ (s.tree.delete (.at h.addr)).isOk = false := by
    decide +kernel
  have third : ([.insert 31 1, .insert 37 2, .insert 55 3, .insert 26 4, .delete 3].foldlM next
      (start 0)).any fun s => s.live.any fun h => (s.next (.delete h.addr)).isNone := by
    decide +kernel
  refine ⟨?_, ?_, ?_⟩
  · obtain ⟨s, run, test⟩ := (Option.any_eq_true _ _).mp first
    obtain ⟨h, live, test⟩ := List.any_eq_true.mp test
    obtain ⟨new, freed⟩ := of_decide_eq_true test
    refine ⟨s, run, fun valid => ?_⟩
    have kept := valid h live
    rw [NodeHandle.Valid, new] at kept
    obtain ⟨nodes, holds, member⟩ := kept
    obtain ⟨_, read, _⟩ := holds.get member
    simp [Rbtree.get, freed] at read
  · obtain ⟨s, run, test⟩ := (Option.any_eq_true _ _).mp second
    obtain ⟨h, live, test⟩ := List.any_eq_true.mp test
    obtain ⟨known, fails⟩ := of_decide_eq_true test
    refine ⟨s, run, fun valid => ?_⟩
    have kept := valid h live
    rw [NodeHandle.Valid, known] at kept
    obtain ⟨t, deleted⟩ := kept
    rw [deleted] at fails
    cases fails
  · obtain ⟨s, run, test⟩ := (Option.any_eq_true _ _).mp third
    obtain ⟨h, live, fails⟩ := List.any_eq_true.mp test
    exact ⟨s, run, h, live, Option.isNone_iff_eq_none.mp fails⟩

end Handles
end Yamq
