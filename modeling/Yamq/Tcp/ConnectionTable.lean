import Yamq.NextId
import Mathlib.Data.Finmap

/-! The `_connections` of `Server` and of `multi::Server`, with everything that goes through it:
`nextId`, `newConnect`, `closeConnect` and `GetConnection`. -/
namespace Yamq

inductive ServerKind where
  | single   -- `Server`
  | multi    -- `multi::Server`
deriving DecidableEq, Repr

structure ConnectionTable where
  nextId : BitVec 64
  /-- `_connections`, in which an id may have a null pointer -/
  connections : Finmap fun _ : BitVec 64 => Option Nat := ∅
  /-- the `GetId()` of each `Connection` object, by the order of their creation -/
  objects : List (BitVec 64) := []
  /-- the objects of the `removeConnect` functors that wait for the main loop -/
  erasing : List Nat := []

inductive TableOp where
  | newConnect
  | closeConnect (con : Nat) (inEvd : Bool)   -- whether the main loop's thread makes the call
  | runErasing (con : Nat)
  | getConnection (id : BitVec 64)
deriving DecidableEq, Repr

namespace ConnectionTable

def taken (s : ConnectionTable) (id : BitVec 64) : Bool := id ∈ s.connections

/-- `_next_id` of the constructor. -/
def start : ServerKind → ConnectionTable
  | .single => { nextId := 0 }
  | .multi => { nextId := 1 }

/-- What `nextId` puts in the place of a negative number. -/
def resetId : ServerKind → BitVec 64
  | .single => 0
  | .multi => 1

def nextIdLoop (kind : ServerKind) (s : ConnectionTable) (turns : Nat) : Option (BitVec 64) :=
  Yamq.nextIdLoop (resetId kind) s.taken turns s.nextId

/-- The loop does not end where every number it can return is taken. -/
def newId (kind : ServerKind) (s : ConnectionTable) : Option (BitVec 64) :=
  s.nextIdLoop kind (fullRound 64)

def newConnect (kind : ServerKind) (s : ConnectionTable) : Option ConnectionTable := do
  let id ← s.newId kind
  let con := s.objects.length
  return { s with
    nextId := id
    connections := s.connections.insert id (some con)
    objects := s.objects ++ [id] }

def erase (s : ConnectionTable) (id : BitVec 64) : ConnectionTable :=
  { s with connections := s.connections.erase id }

/-- `Server` erases in the call, `multi::Server` in the main loop. -/
def closeConnect (kind : ServerKind) (s : ConnectionTable) (con : Nat) (inEvd : Bool) :
    Option ConnectionTable := do
  let id ← s.objects[con]?
  match kind, inEvd with
  | .multi, false => return { s with erasing := s.erasing ++ [con] }
  | _, _ => return s.erase id

def runErasing (s : ConnectionTable) (con : Nat) : Option ConnectionTable :=
  if con ∈ s.erasing then do
    let id ← s.objects[con]?
    return { s with erasing := s.erasing.erase con }.erase id
  else none

/-- `_connections[id]`, which adds a null pointer for an id that is not there. -/
def getConnection (s : ConnectionTable) (id : BitVec 64) : Option Nat × ConnectionTable :=
  match s.connections.lookup id with
  | some con => (con, s)
  | none => (none, { s with connections := s.connections.insert id none })

/-- The table behind an operation that is possible and returns. -/
def step (kind : ServerKind) (s : ConnectionTable) : TableOp → Option ConnectionTable
  | .newConnect => s.newConnect kind
  | .closeConnect con inEvd => s.closeConnect kind con inEvd
  | .runErasing con => s.runErasing con
  | .getConnection id => some (s.getConnection id).2

/-- Every key has a connection, whose `GetId()` is the key. -/
def Live (s : ConnectionTable) : Prop :=
  ∀ id entry, s.connections.lookup id = some entry →
    ∃ con, entry = some con ∧ s.objects[con]? = some id

/-- A lookup of an absent id leaves the table as it was. -/
def LookupOnly (s : ConnectionTable) : TableOp → Prop
  | .getConnection id => id ∉ s.connections → (s.getConnection id).2.connections = s.connections
  | _ => True

/-- The table is live and lookups leave it alone, in every state of the run. -/
def LiveAlong (kind : ServerKind) : ConnectionTable → List TableOp → Prop
  | s, [] => s.Live
  | s, op :: ops => s.Live ∧ s.LookupOnly op ∧ ∀ t, s.step kind op = some t → t.LiveAlong kind ops

/-- `GetConnection` is asked for an id that is there. -/
def AsksPresent (s : ConnectionTable) : TableOp → Prop
  | .getConnection id => id ∈ s.connections
  | _ => True

def AsksPresentAlong (kind : ServerKind) : ConnectionTable → List TableOp → Prop
  | _, [] => True
  | s, op :: ops => s.AsksPresent op ∧ ∀ t, s.step kind op = some t → t.AsksPresentAlong kind ops

variable {kind : ServerKind} {s t : ConnectionTable} {id : BitVec 64} {con : Nat}

theorem start_live (kind : ServerKind) : (start kind).Live := by
  intro id entry here
  cases kind <;> cases here

theorem getConnection_present (present : id ∈ s.connections) : (s.getConnection id).2 = s := by
  obtain ⟨entry, here⟩ := Finmap.mem_iff.mp present
  rw [getConnection, here]

theorem getConnection_absent (absent : id ∉ s.connections) :
    s.getConnection id = (none, { s with connections := s.connections.insert id none }) := by
  rw [getConnection, Finmap.lookup_eq_none.mpr absent]

theorem Live.erase (h : s.Live) (id : BitVec 64) : (s.erase id).Live := by
  intro key entry here
  by_cases gone : key = id
  · rw [gone, ConnectionTable.erase, Finmap.lookup_erase] at here
    cases here
  · rw [ConnectionTable.erase, Finmap.lookup_erase_ne gone] at here
    exact h key entry here

theorem Live.newConnect (h : s.Live) (run : s.newConnect kind = some t) : t.Live := by
  obtain ⟨id, -, run⟩ := Option.bind_eq_some_iff.mp run
  cases run
  intro key entry here
  by_cases new : key = id
  · subst new
    rw [Finmap.lookup_insert] at here
    cases here
    exact ⟨s.objects.length, rfl, List.getElem?_concat_length⟩
  · rw [Finmap.lookup_insert_of_ne _ new] at here
    obtain ⟨con, rfl, named⟩ := h key entry here
    exact ⟨con, rfl, by rw [List.getElem?_append_left (List.getElem?_eq_some_iff.mp named).1, named]⟩

theorem Live.step {op : TableOp} (h : s.Live) (asks : s.AsksPresent op) (run : s.step kind op = some t) :
    t.Live := by
  cases op with
  | newConnect => exact h.newConnect run
  | closeConnect con inEvd =>
    obtain ⟨id, -, run⟩ := Option.bind_eq_some_iff.mp run
    split at run
    · cases run
      exact h
    · cases run
      exact h.erase id
  | runErasing con =>
    simp only [ConnectionTable.step, runErasing] at run
    split at run
    · obtain ⟨id, -, run⟩ := Option.bind_eq_some_iff.mp run
      cases run
      exact Live.erase (s := { s with erasing := s.erasing.erase con }) h id
    · cases run
  | getConnection id =>
    cases run
    rw [getConnection_present asks]
    exact h

theorem not_live_of_absent (absent : id ∉ s.connections) : ¬ (s.getConnection id).2.Live := by
  intro live
  rw [getConnection_absent absent] at live
  obtain ⟨con, null, -⟩ := live id none (Finmap.lookup_insert _)
  cases null

theorem LiveAlong.live {ops : List TableOp} (h : s.LiveAlong kind ops) : s.Live := by
  cases ops with
  | nil => exact h
  | cons op ops => exact h.1

theorem lookupOnly {op : TableOp} (asks : s.AsksPresent op) : s.LookupOnly op := by
  cases op with
  | getConnection id => exact fun absent => absurd asks absent
  | _ => trivial

/-- The table of either server stays live along a run exactly when each `GetConnection` of the run is
asked for an id that is in the table. -/
theorem live_along_iff (kind : ServerKind) (ops : List TableOp) :
    (start kind).LiveAlong kind ops ↔ (start kind).AsksPresentAlong kind ops := by
  suffices ∀ s : ConnectionTable, s.Live → (s.LiveAlong kind ops ↔ s.AsksPresentAlong kind ops) from
    this _ (start_live kind)
  induction ops with
  | nil => exact fun s live => iff_of_true live trivial
  | cons op ops ih =>
    intro s live
    constructor
    · rintro ⟨-, -, rest⟩
      have asks : s.AsksPresent op := by
        cases op with
        | getConnection id =>
          by_contra absent
          exact not_live_of_absent absent (rest _ rfl).live
        | _ => trivial
      exact ⟨asks, fun t run => (ih t (live.step asks run)).mp (rest t run)⟩
    · rintro ⟨asks, rest⟩
      exact ⟨live, lookupOnly asks, fun t run => (ih t (live.step asks run)).mpr (rest t run)⟩

/-- A lookup of an id that no connection has leaves a null pointer under it. -/
theorem lookup_adds_null (kind : ServerKind) :
    ((start kind).getConnection 5).2.connections.lookup 5 = some none := by
  have absent : (5 : BitVec 64) ∉ (start kind).connections := by
    cases kind <;> exact Finmap.notMem_empty
  rw [getConnection_absent absent]
  exact Finmap.lookup_insert _

theorem not_live_along :
    ¬ (start .single).LiveAlong .single [.getConnection 5] ∧
      ¬ (start .multi).LiveAlong .multi [.getConnection 5] := by
  have fails : ∀ kind, ¬ (start kind).LiveAlong kind [.getConnection 5] := by
    rintro kind ⟨-, -, rest⟩
    obtain ⟨con, null, -⟩ := (rest _ rfl).live 5 none (lookup_adds_null kind)
    cases null
  exact ⟨fails .single, fails .multi⟩

end ConnectionTable
end Yamq
