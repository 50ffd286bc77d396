import Yamq.Machine
import Yamq.Lib.Ownership
import Yamq.Lib.Transition
import Mathlib.Logic.Function.Basic

/-! `base/std/any.h`: the objects hold pointers to holders on the heap, which they clone, hand over and
delete. Against it, objects that are values. -/
namespace Yamq

open Transition Ownership

variable {T : Type} {value : T → Type}

/-- A `Holder`: its `_held` with the type of that. -/
abbrev Holder (value : T → Type) := Sigma value

/-- Where an `Any` stands. The assignments make a temporary one. -/
inductive Slot where
  | named (i : Nat)
  | temporary
deriving DecidableEq, Repr

/-- The holders, the `_content` of every object and which objects there are. -/
structure Anys (value : T → Type) where
  heap : Heap (Holder value)
  content : Slot → Option Nat
  alive : Nat → Bool

namespace Anys

def setContent (s : Anys value) (i : Slot) (p : Option Nat) : Anys value :=
  { s with content := Function.update s.content i p }

/-- The holder behind a pointer that is not null. -/
def holder (s : Anys value) (p : Nat) : Except Fault (Holder value) :=
  match s.heap.cells p with
  | some h => .ok h
  | none => .error .useAfterFree

/-- `Any(const value_type &)` and `Any(value_type &&)`. -/
def construct (s : Anys value) (i : Slot) (h : Holder value) : Anys value :=
  { s with heap := s.heap.alloc h, content := Function.update s.content i (some s.heap.fresh) }

/-- `Any(const Any &)`, with `clone`. -/
def copy (s : Anys value) (i other : Slot) : Except Fault (Anys value) :=
  match s.content other with
  | some p => do return s.construct i (← s.holder p)
  | none => .ok (s.setContent i none)

/-- `Any(Any &&)` -/
def move (s : Anys value) (i other : Slot) : Anys value :=
  (s.setContent i (s.content other)).setContent other none

/-- `~Any()` -/
def destroy (s : Anys value) (i : Slot) : Except Fault (Anys value) :=
  match s.content i with
  | some p => do
    let _ ← s.holder p
    return { s with heap := s.heap.free p }.setContent i none
  | none => .ok s

def swap (s : Anys value) (i rhs : Slot) : Anys value :=
  (s.setContent i (s.content rhs)).setContent rhs (s.content i)

/-- `operator=(const value_type &)` and `operator=(value_type &&)` for a value. -/
def assignValue (s : Anys value) (i : Slot) (h : Holder value) : Except Fault (Anys value) :=
  ((s.construct .temporary h).swap .temporary i).destroy .temporary

/-- `operator=(value_type &&)` for an `Any` that is an lvalue. -/
def assign (s : Anys value) (i rhs : Slot) : Except Fault (Anys value) := do
  let s ← s.copy .temporary rhs
  (s.swap .temporary i).destroy .temporary

/-- `operator=(value_type &&)` for an `Any` that is an rvalue. -/
def moveAssign (s : Anys value) (i rhs : Slot) : Except Fault (Anys value) :=
  ((s.move .temporary rhs).swap .temporary i).destroy .temporary

def isEmpty (s : Anys value) (i : Slot) : Bool := (s.content i).isNone

/-- `GetType`, with `none` for `typeid(void)`. -/
def getType (s : Anys value) (i : Slot) : Except Fault (Option T) :=
  match s.content i with
  | some p => do return some (← s.holder p).1
  | none => .ok none

/-! The parts of the calls, by what the slots see. -/

def sees (s : Anys value) : Slot → Option (Holder value) := view s.heap s.content

variable {s s' : Anys value} {i j : Slot}

theorem holder_of (owned : Owned s.heap s.content) {p : Nat} (at_ : s.content i = some p) :
    ∃ h, s.holder p = .ok h ∧ s.sees i = some h := by
  cases cell : s.heap.cells p with
  | none => exact absurd cell (owned.cell i p at_)
  | some h => exact ⟨h, by rw [holder, cell], by rw [sees, view_at at_, cell]⟩

theorem sees_none (owned : Owned s.heap s.content) : s.sees i = none ↔ s.content i = none :=
  owned.view_eq_none

theorem setContent_null (null : s.content i = none) : s.setContent i none = s := by
  rw [setContent, ← null, Function.update_eq_self]

theorem construct_spec (owned : Owned s.heap s.content) (null : s.content i = none) (h : Holder value) :
    Owned (s.construct i h).heap (s.construct i h).content ∧
      (s.construct i h).sees = Function.update s.sees i (some h) :=
  owned.alloc null h

theorem copy_spec (owned : Owned s.heap s.content) (null : s.content i = none) :
    ∃ s', s.copy i j = .ok s' ∧ Owned s'.heap s'.content ∧ s'.alive = s.alive ∧
      s'.sees = Function.update s.sees i (s.sees j) := by
  cases at_ : s.content j with
  | none =>
    refine ⟨s, by rw [copy, at_, setContent_null null], owned, rfl, ?_⟩
    rw [(sees_none owned).mpr at_, ← (sees_none owned).mpr null, Function.update_eq_self]
  | some p =>
    obtain ⟨h, held, seen⟩ := holder_of owned at_
    obtain ⟨owned', sees'⟩ := construct_spec owned null h
    refine ⟨s.construct i h, ?_, owned', rfl, by rw [sees', seen]⟩
    simp only [copy, at_, held, ok_bind, pure_ok]

theorem swap_content (s : Anys value) (i j : Slot) :
    (s.swap i j).content = s.content ∘ Equiv.swap i j := by
  funext k
  simp only [swap, setContent, Function.comp_apply, Equiv.swap_apply_def]
  by_cases second : k = j
  · subst second
    by_cases first : k = i
    · rw [Function.update_self, if_pos first, first]
    · rw [Function.update_self, if_neg first, if_pos rfl]
  · rw [Function.update_of_ne second, if_neg second]
    by_cases first : k = i
    · rw [first, Function.update_self, if_pos rfl]
    · rw [Function.update_of_ne first, if_neg first]

theorem swap_spec (owned : Owned s.heap s.content) :
    Owned (s.swap i j).heap (s.swap i j).content ∧ (s.swap i j).sees = s.sees ∘ Equiv.swap i j := by
  rw [sees, swap_content]
  exact ⟨owned.perm _, rfl⟩

theorem move_eq_swap (null : s.content i = none) : s.move i j = s.swap i j := by
  rw [move, swap, null]

theorem destroy_spec (owned : Owned s.heap s.content) :
    ∃ s', s.destroy i = .ok s' ∧ Owned s'.heap s'.content ∧ s'.alive = s.alive ∧
      s'.sees = Function.update s.sees i none := by
  cases at_ : s.content i with
  | none =>
    refine ⟨s, by rw [destroy, at_], owned, rfl, ?_⟩
    rw [← (sees_none owned).mpr at_, Function.update_eq_self]
  | some p =>
    obtain ⟨h, held, _⟩ := holder_of owned at_
    obtain ⟨owned', sees'⟩ := owned.free at_
    refine ⟨({ s with heap := s.heap.free p } : Anys value).setContent i none, ?_, owned', rfl, sees'⟩
    simp only [destroy, at_, held, ok_bind, pure_ok]

/-- Between two calls: every holder has one owner, and only objects that are there have one. -/
structure Tidy (s : Anys value) : Prop where
  owned : Owned s.heap s.content
  temporary : s.sees .temporary = none
  gone : ∀ i, s.alive i = false → s.sees (.named i) = none

def start : Anys value := ⟨.empty, fun _ => none, fun _ => false⟩

theorem start_tidy : (start : Anys value).Tidy := ⟨.empty fun _ => rfl, rfl, fun _ _ => rfl⟩

theorem Tidy.null (tidy : s.Tidy) : s.content .temporary = none := (sees_none tidy.owned).mp tidy.temporary

theorem Tidy.dead (tidy : s.Tidy) {i : Nat} (gone : s.alive i = false) : s.content (.named i) = none :=
  (sees_none tidy.owned).mp (tidy.gone i gone)

theorem temporary_ne (i : Nat) : Slot.temporary ≠ .named i := nofun

theorem named_ne_temporary (i : Nat) : Slot.named i ≠ .temporary := nofun

/-- What a temporary object is given comes to the object that it is swapped with. -/
theorem through_temporary {v : Slot → Option (Holder value)} (null : v .temporary = none)
    (x : Option (Holder value)) (i : Nat) :
    Function.update (Function.update v .temporary x ∘ Equiv.swap .temporary (.named i)) .temporary none =
      Function.update v (.named i) x := by
  funext k
  cases k with
  | temporary => rw [Function.update_self, Function.update_of_ne (temporary_ne i), null]
  | named k =>
    rw [Function.update_of_ne (named_ne_temporary k), Function.comp_apply]
    by_cases here : k = i
    · rw [here, Equiv.swap_apply_right, Function.update_self, Function.update_self]
    · have apart : Slot.named k ≠ .named i := fun same => here (Slot.named.inj same)
      rw [Equiv.swap_apply_of_ne_of_ne (named_ne_temporary k) apart,
        Function.update_of_ne (named_ne_temporary k), Function.update_of_ne apart]

theorem assignValue_spec (tidy : s.Tidy) (i : Nat) (h : Holder value) :
    ∃ s', s.assignValue (.named i) h = .ok s' ∧ Owned s'.heap s'.content ∧ s'.alive = s.alive ∧
      s'.sees = Function.update s.sees (.named i) (some h) := by
  obtain ⟨owned₁, sees₁⟩ := construct_spec tidy.owned tidy.null h
  obtain ⟨owned₂, sees₂⟩ := @swap_spec _ _ _ .temporary (.named i) owned₁
  obtain ⟨s', run, owned₃, alive, sees₃⟩ := @destroy_spec _ _ _ .temporary owned₂
  refine ⟨s', run, owned₃, alive, ?_⟩
  rw [sees₃, sees₂, sees₁]
  exact through_temporary tidy.temporary _ i

theorem assign_spec (tidy : s.Tidy) (i rhs : Nat) :
    ∃ s', s.assign (.named i) (.named rhs) = .ok s' ∧ Owned s'.heap s'.content ∧ s'.alive = s.alive ∧
      s'.sees = Function.update s.sees (.named i) (s.sees (.named rhs)) := by
  obtain ⟨s₁, copied, owned₁, alive₁, sees₁⟩ := @copy_spec _ _ _ .temporary (.named rhs) tidy.owned tidy.null
  obtain ⟨owned₂, sees₂⟩ := @swap_spec _ _ _ .temporary (.named i) owned₁
  obtain ⟨s', run, owned₃, alive, sees₃⟩ := @destroy_spec _ _ _ .temporary owned₂
  refine ⟨s', ?_, owned₃, alive.trans alive₁, ?_⟩
  · rw [assign, copied, ok_bind]
    exact run
  · rw [sees₃, sees₂, sees₁]
    exact through_temporary tidy.temporary _ i

theorem moveAssign_spec (tidy : s.Tidy) (i rhs : Nat) :
    ∃ s', s.moveAssign (.named i) (.named rhs) = .ok s' ∧ Owned s'.heap s'.content ∧ s'.alive = s.alive ∧
      s'.sees = if i = rhs then s.sees
        else Function.update (Function.update s.sees (.named i) (s.sees (.named rhs))) (.named rhs) none := by
  obtain ⟨owned₁, sees₁⟩ := @swap_spec _ _ s .temporary (.named rhs) tidy.owned
  obtain ⟨owned₂, sees₂⟩ := @swap_spec _ _ _ .temporary (.named i) owned₁
  obtain ⟨s', run, owned₃, alive, sees₃⟩ := @destroy_spec _ _ _ .temporary owned₂
  refine ⟨s', ?_, owned₃, alive, ?_⟩
  · rw [moveAssign, move_eq_swap tidy.null]
    exact run
  · rw [sees₃, sees₂, sees₁]
    funext k
    cases k with
    | temporary =>
      rw [Function.update_self]
      split
      · exact tidy.temporary.symm
      · rw [Function.update_of_ne (temporary_ne rhs), Function.update_of_ne (temporary_ne i),
          tidy.temporary]
    | named k =>
      have away := named_ne_temporary k
      rw [Function.update_of_ne away, Function.comp_apply, Function.comp_apply]
      by_cases same : i = rhs
      · rw [if_pos same, same, Equiv.swap_apply_self]
      · rw [if_neg same]
        by_cases last : k = rhs
        · have apart : Slot.named k ≠ .named i := fun eq => same (Slot.named.inj eq ▸ last)
          rw [Equiv.swap_apply_of_ne_of_ne away apart, last, Equiv.swap_apply_right,
            Function.update_self, tidy.temporary]
        · have other : Slot.named k ≠ .named rhs := fun eq => last (Slot.named.inj eq)
          rw [Function.update_of_ne other]
          by_cases first : k = i
          · rw [first, Equiv.swap_apply_right, Equiv.swap_apply_left, Function.update_self]
          · have apart : Slot.named k ≠ .named i := fun eq => first (Slot.named.inj eq)
            rw [Equiv.swap_apply_of_ne_of_ne away apart, Equiv.swap_apply_of_ne_of_ne away other,
              Function.update_of_ne apart]

/-! The casts. -/

variable [DecidableEq T]

/-- `any_cast` of a pointer: the address of the held value, null when it has another type. -/
def anyCast (s : Anys value) (any : Option Slot) (t : T) : Except Fault (Option Nat) :=
  match any with
  | none => .error .nullPointer
  | some i => do if (← s.getType i) = some t then return s.content i else return none

/-- `*any_cast<value_type>(any) = v` -/
def write (s : Anys value) (i : Slot) (t : T) (v : value t) : Except Fault (Anys value) := do
  match ← s.anyCast (some i) t with
  | some p => return { s with heap := s.heap.write p ⟨t, v⟩ }
  | none => .error .nullPointer

/-- `any_cast` of a reference. -/
def anyCastRef (s : Anys value) (i : Slot) (t : T) : Except Fault (Holder value) := do
  match ← s.anyCast (some i) t with
  | some p => s.holder p
  | none => .error .assertion

end Anys

inductive AnyOp (value : T → Type) where
  | new (i : Nat)
  | newValue (i : Nat) (h : Holder value)
  | newCopy (i other : Nat)
  | newMove (i other : Nat)
  | delete (i : Nat)
  | swap (i rhs : Nat)
  | assignValue (i : Nat) (h : Holder value)
  | assign (i rhs : Nat)
  | moveAssign (i rhs : Nat)
  | isEmpty (i : Nat)
  | getType (i : Nat)
  | anyCast (any : Option Nat) (t : T)
  | write (i : Nat) (t : T) (v : value t)
  | anyCastRef (i : Nat) (t : T)

/-- What a call returns. -/
inductive AnyAnswer (value : T → Type) where
  | nothing
  | flag (b : Bool)
  | type (t : Option T)
  | held (h : Option (Holder value))

namespace AnyOp

open Anys

/-- The objects as values: which there are, and what they hold. -/
abbrev Values (value : T → Type) := Nat → Option (Option (Holder value))

/-- The objects that are there, by what the slots see. -/
def valuesOf (alive : Nat → Bool) (sees : Slot → Option (Holder value)) : Values value := fun i =>
  if alive i then some (sees (.named i)) else none

variable {alive : Nat → Bool} {sees : Slot → Option (Holder value)} {i : Nat}

theorem valuesOf_alive (there : alive i = true) : valuesOf alive sees i = some (sees (.named i)) :=
  if_pos there

theorem valuesOf_put (i : Nat) (x : Option (Holder value)) :
    valuesOf (Function.update alive i true) (Function.update sees (.named i) x) =
      Function.update (valuesOf alive sees) i (some x) := by
  funext k
  by_cases here : k = i
  · rw [here, Function.update_self, valuesOf_alive (Function.update_self ..), Function.update_self]
  · have apart : Slot.named k ≠ .named i := fun same => here (Slot.named.inj same)
    rw [Function.update_of_ne here, valuesOf, valuesOf, Function.update_of_ne here,
      Function.update_of_ne apart]

theorem valuesOf_drop (i : Nat) (x : Option (Holder value)) :
    valuesOf (Function.update alive i false) (Function.update sees (.named i) x) =
      Function.update (valuesOf alive sees) i none := by
  funext k
  by_cases here : k = i
  · rw [here, Function.update_self, valuesOf, Function.update_self, if_neg Bool.false_ne_true]
  · have apart : Slot.named k ≠ .named i := fun same => here (Slot.named.inj same)
    rw [Function.update_of_ne here, valuesOf, valuesOf, Function.update_of_ne here,
      Function.update_of_ne apart]

variable [DecidableEq T]

def silent (s : Anys value) : AnyAnswer value × Anys value := (.nothing, s)

def run (s : Anys value) : AnyOp value → Except Fault (AnyAnswer value × Anys value)
  | new i => .ok (silent { s.setContent (.named i) none with alive := Function.update s.alive i true })
  | newValue i h =>
    .ok (silent { s.construct (.named i) h with alive := Function.update s.alive i true })
  | newCopy i other => do
    let s' ← s.copy (.named i) (.named other)
    return silent { s' with alive := Function.update s.alive i true }
  | newMove i other =>
    .ok (silent { s.move (.named i) (.named other) with alive := Function.update s.alive i true })
  | delete i => do
    let s' ← s.destroy (.named i)
    return silent { s' with alive := Function.update s.alive i false }
  | swap i rhs => .ok (silent (s.swap (.named i) (.named rhs)))
  | assignValue i h => do return silent (← s.assignValue (.named i) h)
  | assign i rhs => do return silent (← s.assign (.named i) (.named rhs))
  | moveAssign i rhs => do return silent (← s.moveAssign (.named i) (.named rhs))
  | isEmpty i => .ok (.flag (s.isEmpty (.named i)), s)
  | getType i => do return (.type (← s.getType (.named i)), s)
  | anyCast any t => do
    match ← s.anyCast (any.map .named) t with
    | some p => return (.held (some (← s.holder p)), s)
    | none => return (.held none, s)
  | write i t v => do return silent (← s.write (.named i) t v)
  | anyCastRef i t => do return (.held (some (← s.anyCastRef (.named i) t)), s)

/-- The held value, if it has this type. -/
def heldAs (vals : Values value) (i : Nat) (t : T) : Option (Holder value) :=
  (vals i).join.filter fun h => h.1 = t

def apply (vals : Values value) : AnyOp value → AnyAnswer value × Values value
  | new i => (.nothing, Function.update vals i (some none))
  | newValue i h => (.nothing, Function.update vals i (some (some h)))
  | newCopy i other => (.nothing, Function.update vals i (vals other))
  | newMove i other =>
    (.nothing, Function.update (Function.update vals i (vals other)) other (some none))
  | delete i => (.nothing, Function.update vals i none)
  | swap i rhs => (.nothing, Function.update (Function.update vals i (vals rhs)) rhs (vals i))
  | assignValue i h => (.nothing, Function.update vals i (some (some h)))
  | assign i rhs => (.nothing, Function.update vals i (vals rhs))
  | moveAssign i rhs => (.nothing,
    if i = rhs then vals
    else Function.update (Function.update vals i (vals rhs)) rhs (some none))
  | isEmpty i => (.flag (vals i).join.isNone, vals)
  | getType i => (.type ((vals i).join.map Sigma.fst), vals)
  | anyCast any t => (.held (any.bind fun i => heldAs vals i t), vals)
  | write i t v => (.nothing, Function.update vals i (some (some ⟨t, v⟩)))
  | anyCastRef i t => (.held (heldAs vals i t), vals)

/-- The objects that a call names are there, and the ones that it makes are not. -/
def Named (alive : Nat → Bool) : AnyOp value → Prop
  | new i => alive i = false
  | newValue i _ => alive i = false
  | newCopy i other => alive i = false ∧ alive other = true
  | newMove i other => alive i = false ∧ alive other = true
  | delete i => alive i = true
  | swap i rhs => alive i = true ∧ alive rhs = true
  | assignValue i _ => alive i = true
  | assign i rhs => alive i = true ∧ alive rhs = true
  | moveAssign i rhs => alive i = true ∧ alive rhs = true
  | isEmpty i => alive i = true
  | getType i => alive i = true
  | anyCast any _ => ∀ i, any = some i → alive i = true
  | write i _ _ => alive i = true
  | anyCastRef i _ => alive i = true

/-- A cast needs an object, and one whose result is used a value of its type. -/
def Sound (vals : Values value) : AnyOp value → Prop
  | anyCast any _ => any ≠ none
  | write i t _ => heldAs vals i t ≠ none
  | anyCastRef i t => heldAs vals i t ≠ none
  | _ => True

/-- What calls one after the other return, and the values after them. -/
def evaluate (vals : Values value) : List (AnyOp value) → List (AnyAnswer value) × Values value
  | [] => ([], vals)
  | op :: ops =>
    let rest := evaluate (op.apply vals).2 ops
    ((op.apply vals).1 :: rest.1, rest.2)

theorem evaluate_concat (vals : Values value) (ops : List (AnyOp value)) (op : AnyOp value) :
    evaluate vals (ops ++ [op]) =
      ((evaluate vals ops).1 ++ [(op.apply (evaluate vals ops).2).1],
        (op.apply (evaluate vals ops).2).2) := by
  induction ops generalizing vals with
  | nil => rfl
  | cons first ops ih => simp only [List.cons_append, evaluate, ih]

end AnyOp

namespace Anys

open AnyOp

def values (s : Anys value) : Values value := valuesOf s.alive s.sees

variable {s s' : Anys value} {i j : Nat}

theorem values_alive (there : s.alive i = true) : s.values i = some (s.sees (.named i)) :=
  valuesOf_alive there

theorem gone_put {alive : Nat → Bool} {sees : Slot → Option (Holder value)} {b : Bool}
    {x : Option (Holder value)} (empty : b = false → x = none)
    (gone : ∀ k, alive k = false → sees (.named k) = none) (k : Nat)
    (dead : Function.update alive i b k = false) :
    Function.update sees (.named i) x (.named k) = none := by
  by_cases here : k = i
  · subst here
    rw [Function.update_self] at dead ⊢
    exact empty dead
  · have apart : Slot.named k ≠ .named i := fun same => here (Slot.named.inj same)
    rw [Function.update_of_ne here] at dead
    rw [Function.update_of_ne apart]
    exact gone k dead

/-- A call that sets what one object holds, and may make it. -/
theorem Tidy.put (tidy : s.Tidy) {x : Option (Holder value)} (owned : Owned s'.heap s'.content)
    (alive : s'.alive = Function.update s.alive i true)
    (sees : s'.sees = Function.update s.sees (.named i) x) :
    s'.Tidy ∧ s'.values = Function.update s.values i (some x) := by
  refine ⟨⟨owned, ?_, ?_⟩, ?_⟩
  · rw [sees, Function.update_of_ne (temporary_ne i), tidy.temporary]
  · rw [alive, sees]
    exact gone_put nofun tidy.gone
  · rw [values, alive, sees, valuesOf_put, values]

theorem Tidy.set (tidy : s.Tidy) (there : s.alive i = true) {x : Option (Holder value)}
    (owned : Owned s'.heap s'.content) (alive : s'.alive = s.alive)
    (sees : s'.sees = Function.update s.sees (.named i) x) :
    s'.Tidy ∧ s'.values = Function.update s.values i (some x) := by
  refine tidy.put owned ?_ sees
  rw [alive, ← there, Function.update_eq_self]

theorem Tidy.drop (tidy : s.Tidy) (owned : Owned s'.heap s'.content)
    (alive : s'.alive = Function.update s.alive i false)
    (sees : s'.sees = Function.update s.sees (.named i) none) :
    s'.Tidy ∧ s'.values = Function.update s.values i none := by
  refine ⟨⟨owned, ?_, ?_⟩, ?_⟩
  · rw [sees, Function.update_of_ne (temporary_ne i), tidy.temporary]
  · rw [alive, sees]
    exact gone_put (fun _ => rfl) tidy.gone
  · rw [values, alive, sees, valuesOf_drop, values]

/-- A call that hands what one object holds to another. -/
theorem Tidy.exchange (tidy : s.Tidy) (there : s.alive j = true) {x y : Option (Holder value)}
    (owned : Owned s'.heap s'.content) (alive : s'.alive = Function.update s.alive i true)
    (sees : s'.sees = Function.update (Function.update s.sees (.named i) x) (.named j) y) :
    s'.Tidy ∧ s'.values = Function.update (Function.update s.values i (some x)) j (some y) := by
  have there' : s'.alive j = true := by
    rw [alive]
    by_cases here : j = i
    · rw [here, Function.update_self]
    · rw [Function.update_of_ne here, there]
  have still : s'.alive = Function.update s'.alive j true := by rw [← there', Function.update_eq_self]
  refine ⟨⟨owned, ?_, ?_⟩, ?_⟩
  · rw [sees, Function.update_of_ne (temporary_ne j), Function.update_of_ne (temporary_ne i),
      tidy.temporary]
  · rw [still, sees]
    refine gone_put nofun ?_
    rw [alive]
    exact gone_put nofun tidy.gone
  · rw [values, still, sees, valuesOf_put, alive, valuesOf_put, values]

/-! What a named call returns, and what it leaves. -/

theorem getType_spec (tidy : s.Tidy) (i : Nat) :
    s.getType (.named i) = .ok ((s.sees (.named i)).map Sigma.fst) := by
  cases at_ : s.content (.named i) with
  | none => rw [getType, at_, (sees_none tidy.owned).mpr at_, Option.map_none]
  | some p =>
    obtain ⟨h, held, seen⟩ := holder_of tidy.owned at_
    simp only [getType, at_, held, seen, ok_bind, pure_ok, Option.map_some]

theorem isEmpty_spec (tidy : s.Tidy) (i : Nat) :
    s.isEmpty (.named i) = (s.sees (.named i)).isNone := by
  cases at_ : s.content (.named i) with
  | none =>
    rw [isEmpty, at_, (sees_none tidy.owned).mpr at_]
    rfl
  | some p =>
    obtain ⟨h, _, seen⟩ := holder_of tidy.owned at_
    rw [isEmpty, at_, seen]
    rfl

variable [DecidableEq T]

theorem heldAs_alive (there : s.alive i = true) (t : T) :
    heldAs s.values i t = (s.sees (.named i)).filter fun h => h.1 = t := by
  rw [heldAs, values_alive there, Option.join_some]

theorem anyCast_spec (tidy : s.Tidy) (there : s.alive i = true) (t : T) :
    (heldAs s.values i t = none ∧ s.anyCast (some (.named i)) t = .ok none) ∨
      ∃ p h, heldAs s.values i t = some h ∧ s.anyCast (some (.named i)) t = .ok (some p) ∧
        s.content (.named i) = some p ∧ s.holder p = .ok h := by
  rw [heldAs_alive there]
  simp only [anyCast, getType_spec tidy i, ok_bind]
  cases at_ : s.content (.named i) with
  | none =>
    rw [(sees_none tidy.owned).mpr at_]
    exact .inl ⟨rfl, rfl⟩
  | some p =>
    obtain ⟨h, held, seen⟩ := holder_of tidy.owned at_
    rw [seen, Option.map_some]
    by_cases same : h.1 = t
    · refine .inr ⟨p, h, ?_, ?_, rfl, held⟩
      · rw [Option.filter_some, if_pos (decide_eq_true same)]
      · rw [if_pos (congrArg some same), pure_ok]
    · refine .inl ⟨?_, ?_⟩
      · rw [Option.filter_some, if_neg (by simpa using same)]
      · rw [if_neg (fun eq => same (Option.some.inj eq)), pure_ok]

/-- What a call leaves is tidy and is what the call makes of the values. -/
def Leaves (s : Anys value) (op : AnyOp value) (s' : Anys value) : Prop :=
  op.run s = .ok ((op.apply s.values).1, s') ∧ s'.Tidy ∧ s'.values = (op.apply s.values).2

theorem new_spec (tidy : s.Tidy) (dead : s.alive i = false) : ∃ s', s.Leaves (.new i) s' := by
  refine ⟨_, rfl, ?_⟩
  rw [setContent_null (tidy.dead dead)]
  refine tidy.put tidy.owned rfl ?_
  rw [← tidy.gone i dead, Function.update_eq_self]
  rfl

theorem newValue_spec (tidy : s.Tidy) (dead : s.alive i = false) (h : Holder value) :
    ∃ s', s.Leaves (.newValue i h) s' := by
  obtain ⟨owned, sees⟩ := construct_spec tidy.owned (tidy.dead dead) h
  exact ⟨_, rfl, tidy.put owned rfl sees⟩

theorem newCopy_spec (tidy : s.Tidy) (dead : s.alive i = false) (there : s.alive j = true) :
    ∃ s', s.Leaves (.newCopy i j) s' := by
  obtain ⟨s₁, copied, owned, _, sees⟩ := @copy_spec _ _ _ _ (.named j) tidy.owned (tidy.dead dead)
  refine ⟨{ s₁ with alive := Function.update s.alive i true }, ?_, ?_⟩
  · simp only [AnyOp.run, copied, ok_bind, pure_ok, apply, silent]
  · rw [apply, values_alive there]
    exact tidy.put owned rfl sees

theorem newMove_spec (tidy : s.Tidy) (dead : s.alive i = false) (there : s.alive j = true) :
    ∃ s', s.Leaves (.newMove i j) s' := by
  refine ⟨_, rfl, ?_⟩
  rw [move_eq_swap (tidy.dead dead), apply, values_alive there]
  obtain ⟨owned, sees⟩ := @swap_spec _ _ _ (.named i) (.named j) tidy.owned
  refine tidy.exchange there owned rfl ?_
  rw [Equiv.swap_comm, Equiv.comp_swap_eq_update, tidy.gone i dead] at sees
  exact sees

theorem delete_spec (tidy : s.Tidy) (i : Nat) : ∃ s', s.Leaves (.delete i) s' := by
  obtain ⟨s₁, gone, owned, _, sees⟩ := @destroy_spec _ _ _ (.named i) tidy.owned
  refine ⟨{ s₁ with alive := Function.update s.alive i false }, ?_, ?_⟩
  · simp only [AnyOp.run, gone, ok_bind, pure_ok, apply, silent]
  · exact tidy.drop owned rfl sees

theorem swap_call_spec (tidy : s.Tidy) (here : s.alive i = true) (there : s.alive j = true) :
    ∃ s', s.Leaves (.swap i j) s' := by
  refine ⟨_, rfl, ?_⟩
  rw [apply, values_alive there, values_alive here]
  obtain ⟨owned, sees⟩ := @swap_spec _ _ _ (.named i) (.named j) tidy.owned
  rw [Equiv.swap_comm, Equiv.comp_swap_eq_update] at sees
  refine tidy.exchange there owned ?_ sees
  rw [← here, Function.update_eq_self]
  rfl

theorem assignValue_call_spec (tidy : s.Tidy) (here : s.alive i = true) (h : Holder value) :
    ∃ s', s.Leaves (.assignValue i h) s' := by
  obtain ⟨s', run, owned, alive, sees⟩ := assignValue_spec tidy i h
  refine ⟨s', ?_, tidy.set here owned alive sees⟩
  simp only [AnyOp.run, run, ok_bind, pure_ok, apply, silent]

theorem assign_call_spec (tidy : s.Tidy) (here : s.alive i = true) (there : s.alive j = true) :
    ∃ s', s.Leaves (.assign i j) s' := by
  obtain ⟨s', run, owned, alive, sees⟩ := assign_spec tidy i j
  refine ⟨s', ?_, ?_⟩
  · simp only [AnyOp.run, run, ok_bind, pure_ok, apply, silent]
  · rw [apply, values_alive there]
    exact tidy.set here owned alive sees

theorem moveAssign_call_spec (tidy : s.Tidy) (here : s.alive i = true) (there : s.alive j = true) :
    ∃ s', s.Leaves (.moveAssign i j) s' := by
  obtain ⟨s', run, owned, alive, sees⟩ := moveAssign_spec tidy i j
  refine ⟨s', ?_, ?_⟩
  · simp only [AnyOp.run, run, ok_bind, pure_ok, apply, silent]
  · rw [apply, values_alive there]
    by_cases same : i = j
    · rw [if_pos same] at sees ⊢
      refine ⟨⟨owned, ?_, ?_⟩, ?_⟩
      · rw [sees, tidy.temporary]
      · rw [alive, sees]
        exact tidy.gone
      · rw [values, values, alive, sees]
    · rw [if_neg same] at sees ⊢
      refine tidy.exchange there owned ?_ sees
      rw [alive, ← here, Function.update_eq_self]

theorem write_spec (tidy : s.Tidy) (here : s.alive i = true) (t : T) (v : value t)
    (sound : heldAs s.values i t ≠ none) : ∃ s', s.Leaves (.write i t v) s' := by
  obtain ⟨other, _⟩ | ⟨p, h, _, cast, at_, _⟩ := anyCast_spec tidy here t
  · exact absurd other sound
  · obtain ⟨owned, sees⟩ := tidy.owned.write at_ ⟨t, v⟩
    refine ⟨{ s with heap := s.heap.write p ⟨t, v⟩ }, ?_, tidy.set here owned rfl sees⟩
    simp only [AnyOp.run, Anys.write, cast, ok_bind, pure_ok, apply, silent]

theorem casts_spec (tidy : s.Tidy) (here : s.alive i = true) (t : T) :
    s.Leaves (.anyCast (some i) t) s ∧
      (heldAs s.values i t ≠ none → s.Leaves (.anyCastRef i t) s) := by
  obtain ⟨other, cast⟩ | ⟨p, h, same, cast, _, held⟩ := anyCast_spec tidy here t
  · refine ⟨⟨?_, tidy, rfl⟩, fun sound => absurd other sound⟩
    simp only [AnyOp.run, apply, Option.map_some, cast, ok_bind, pure_ok, Option.bind_some, other]
  · refine ⟨⟨?_, tidy, rfl⟩, fun _ => ⟨?_, tidy, rfl⟩⟩
    · simp only [AnyOp.run, apply, Option.map_some, cast, held, ok_bind, pure_ok, Option.bind_some, same]
    · simp only [AnyOp.run, apply, Anys.anyCastRef, cast, held, ok_bind, pure_ok, same]

/-- One call, against the values. -/
theorem run_spec (tidy : s.Tidy) (op : AnyOp value) (named : op.Named s.alive)
    (sound : op.Sound s.values) : ∃ s', s.Leaves op s' := by
  cases op with
  | new i => exact new_spec tidy named
  | newValue i h => exact newValue_spec tidy named h
  | newCopy i other => exact newCopy_spec tidy named.1 named.2
  | newMove i other => exact newMove_spec tidy named.1 named.2
  | delete i => exact delete_spec tidy i
  | swap i rhs => exact swap_call_spec tidy named.1 named.2
  | assignValue i h => exact assignValue_call_spec tidy named h
  | assign i rhs => exact assign_call_spec tidy named.1 named.2
  | moveAssign i rhs => exact moveAssign_call_spec tidy named.1 named.2
  | isEmpty i =>
    refine ⟨s, ?_, tidy, rfl⟩
    rw [AnyOp.run, isEmpty_spec tidy, apply, values_alive named, Option.join_some]
  | getType i =>
    refine ⟨s, ?_, tidy, rfl⟩
    rw [AnyOp.run, getType_spec tidy, apply, values_alive named, Option.join_some]
    rfl
  | anyCast any t =>
    cases any with
    | none => exact absurd rfl sound
    | some i => exact ⟨s, (casts_spec tidy (named i rfl) t).1⟩
  | write i t v => exact write_spec tidy named t v sound
  | anyCastRef i t => exact ⟨s, (casts_spec tidy named t).2 sound⟩

/-- A call that is not sound does not return. -/
theorem run_unsound (tidy : s.Tidy) (op : AnyOp value) (named : op.Named s.alive)
    (unsound : ¬ op.Sound s.values) : ∃ fault, op.run s = .error fault := by
  cases op with
  | anyCast any t =>
    cases any with
    | none => exact ⟨.nullPointer, rfl⟩
    | some i => exact absurd (nofun : some i ≠ none) unsound
  | write i t v =>
    obtain ⟨_, cast⟩ | ⟨p, h, same, _⟩ := anyCast_spec tidy named t
    · refine ⟨.nullPointer, ?_⟩
      rw [AnyOp.run, Anys.write, cast]
      rfl
    · exact absurd (same ▸ nofun : heldAs s.values i t ≠ none) unsound
  | anyCastRef i t =>
    obtain ⟨_, cast⟩ | ⟨p, h, same, _⟩ := anyCast_spec tidy named t
    · refine ⟨.assertion, ?_⟩
      rw [AnyOp.run, Anys.anyCastRef, cast]
      rfl
    · exact absurd (same ▸ nofun : heldAs s.values i t ≠ none) unsound
  | _ => exact absurd trivial unsound

/-- A call that returns, and its answer. -/
def Step (s : Anys value) (call : AnyOp value × AnyAnswer value) (s' : Anys value) : Prop :=
  call.1.run s = .ok (call.2, s')

def Named (s : Anys value) (call : AnyOp value × AnyAnswer value) : Prop := call.1.Named s.alive

theorem step_spec (tidy : s.Tidy) {call : AnyOp value × AnyAnswer value} (named : s.Named call)
    (taken : s.Step call s') :
    call.2 = (call.1.apply s.values).1 ∧ s'.Tidy ∧ s'.values = (call.1.apply s.values).2 := by
  have sound : call.1.Sound s.values := by
    by_contra unsound
    obtain ⟨fault, failed⟩ := run_unsound tidy call.1 named unsound
    cases taken.symm.trans failed
  obtain ⟨s'', run, tidy', values'⟩ := run_spec tidy call.1 named sound
  have same := Except.ok.inj (taken.symm.trans run)
  cases (Prod.mk.inj same).2
  exact ⟨(Prod.mk.inj same).1, tidy', values'⟩

theorem runs_spec {trace : List (AnyOp value × AnyAnswer value)}
    (run : Runs Step Named (start : Anys value) trace s) :
    s.Tidy ∧ (trace.map Prod.snd, s.values) = evaluate (fun _ => none) (trace.map Prod.fst) := by
  induction run with
  | start => exact ⟨start_tidy, rfl⟩
  | step _ named taken ih =>
    obtain ⟨tidy, agree⟩ := ih
    obtain ⟨answer, tidy', values'⟩ := step_spec tidy named taken
    refine ⟨tidy', ?_⟩
    rw [List.map_append, List.map_append, List.map_singleton, List.map_singleton, evaluate_concat,
      ← agree, answer, values']

theorem any_values {trace : List (AnyOp value × AnyAnswer value)}
    (run : Runs Step Named (start : Anys value) trace s) :
    (trace.map Prod.snd, s.values) = evaluate (fun _ => none) (trace.map Prod.fst) ∧
      (∀ op : AnyOp value, op.Named s.alive → ((∃ r, op.run s = .ok r) ↔ op.Sound s.values)) ∧
      (∀ p, s.heap.cells p ≠ none → ∃! i, s.alive i = true ∧ s.content (.named i) = some p) ∧
      ∀ i p, s.content i = some p → s.heap.cells p ≠ none := by
  obtain ⟨tidy, agree⟩ := runs_spec run
  refine ⟨agree, fun op named => ?_, fun p used => ?_, tidy.owned.cell⟩
  · constructor
    · rintro ⟨r, ran⟩
      by_contra unsound
      obtain ⟨fault, failed⟩ := run_unsound tidy op named unsound
      cases ran.symm.trans failed
    · intro sound
      obtain ⟨s', run, _⟩ := run_spec tidy op named sound
      exact ⟨_, run⟩
  · obtain ⟨k, at_⟩ := tidy.owned.owner p used
    cases k with
    | temporary => cases tidy.null.symm.trans at_
    | named i =>
      refine ⟨i, ⟨?_, at_⟩, fun j ⟨_, at_'⟩ => Slot.named.inj (tidy.owned.alone _ _ p at_' at_)⟩
      by_contra dead
      cases (tidy.dead (Bool.not_eq_true _ ▸ dead)).symm.trans at_

theorem any_values_handed_over :
    ∃ s : Anys fun _ : Bool => Nat, s.content (.named 1) = some 0 ∧
      (∀ op : AnyOp fun _ : Bool => Nat, op.Named s.alive →
        ((∃ r, op.run s = .ok r) ↔ op.Sound s.values)) ∧
      ∀ p, s.heap.cells p ≠ none → ∃! i, s.alive i = true ∧ s.content (.named i) = some p := by
  have made : Runs Step Named (start : Anys fun _ : Bool => Nat) [(.newValue 0 ⟨true, 7⟩, .nothing)] _ :=
    .step .start rfl rfl
  have moved : Runs Step Named (start : Anys fun _ : Bool => Nat)
      [(.newValue 0 ⟨true, 7⟩, .nothing), (.newMove 1 0, .nothing)] _ := .step made ⟨rfl, rfl⟩ rfl
  obtain ⟨_, calls, owners, _⟩ := any_values moved
  exact ⟨_, rfl, calls, owners⟩

end Anys
end Yamq
