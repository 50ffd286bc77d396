import Yamq.Log.Records

/-! The worker to the end of its destructor. Behind `Join` that frees the queue and `_buffer`, and what
the consumer has left there is in no place any more. -/
namespace Yamq

/-- A worker, or what is left of it behind its destructor: the file, and of the messages those that were
stored and those that were freed. -/
inductive LogLife (bufsize : Nat) where
  | alive (w : LogWorker bufsize)
  | gone (output : LogFile) (stored freed : List Record)
deriving DecidableEq, Repr

inductive LifeAct where
  | act (a : LogAct)
  | joined     -- `Join` returns, and the members are destroyed
deriving DecidableEq, Repr

namespace LogLife

variable {bufsize : Nat}

open Transition LogWorker

def step : LogLife bufsize → LifeAct → Option (LogLife bufsize)
  | alive w, .act a => (w.step a).map alive
  | alive w, .joined =>
    if w.stop = true ∧ w.consumer = .exited then some (gone w.output w.stored w.behind) else none
  | gone _ _ _, _ => none

def Steps (x : LogLife bufsize) (a : LifeAct) (x' : LogLife bufsize) : Prop := x.step a = some x'

def new (bufsize bufSize kRollSize : Nat) : LogLife bufsize := alive (.new bufsize bufSize kRollSize)

def output : LogLife bufsize → LogFile
  | alive w => w.output
  | gone output _ _ => output

def stored : LogLife bufsize → List Record
  | alive w => w.stored
  | gone _ stored _ => stored

def freed : LogLife bufsize → List Record
  | alive _ => []
  | gone _ _ freed => freed

def writing : LogLife bufsize → List Record
  | alive w => w.writing
  | gone _ _ _ => []

def filled : LogLife bufsize → List Record
  | alive w => w.filled
  | gone _ _ _ => []

def current : LogLife bufsize → List Record
  | alive w => w.current
  | gone _ _ _ => []

/-- In how many of the four places a record is. -/
def places (x : LogLife bufsize) (r : Record) : Nat :=
  x.output.contents.count r + x.writing.count r + x.filled.count r + x.current.count r

/-- When `Join` returns, the queue and `_buffer` hold no record. -/
def Drained (x : LogLife bufsize) (a : LifeAct) : Prop :=
  a = .joined → ∀ w, x = alive w → w.behind = []

/-- What every run keeps: with those that were freed, all records are there. -/
structure Kept (x : LogLife bufsize) : Prop where
  nodup : x.stored.Nodup
  placed : ∀ w, x = alive w → w.Placed
  same : (x.output.contents ++ (x.writing ++ (x.filled ++ x.current ++ x.freed))).Perm x.stored

variable {x x' : LogLife bufsize} {a : LifeAct}

theorem alive_kept {w : LogWorker bufsize} (placed : w.Placed) : Kept (alive w) := by
  refine ⟨placed.nodup, fun w' same => by cases same; exact placed, ?_⟩
  have same := placed.same
  rw [LogWorker.places, LogWorker.behind] at same
  simpa [output, writing, filled, current, freed, stored] using same

theorem Kept.step (h : Kept x) (steps : Steps x a x') : Kept x' := by
  cases x with
  | gone output stored freed => cases steps
  | alive w =>
    have placed := h.placed w rfl
    cases a with
    | act a =>
      obtain ⟨w', taken, rfl⟩ := Option.map_eq_some_iff.mp steps
      exact alive_kept (placed.step taken)
    | joined =>
      simp only [Steps, LogLife.step] at steps
      split at steps
      · rename_i ended
        cases steps
        -- the consumer has nothing in its hands behind its `break`
        have idle : w.writing = [] := by rw [LogWorker.writing, ended.2]
        refine ⟨h.nodup, fun w same => (by cases same), ?_⟩
        have same := placed.same
        rw [LogWorker.places, idle] at same
        exact same
      · cases steps

theorem new_kept (bufSize kRollSize : Nat) : Kept (new bufsize bufSize kRollSize) :=
  alive_kept (new_placed bufSize kRollSize)

theorem kept_of_reaches {Allowed : LogLife bufsize → LifeAct → Prop} {bufSize kRollSize : Nat}
    (run : Reaches Steps Allowed (new bufsize bufSize kRollSize) x) : Kept x :=
  run.invariant (new_kept ..) fun _ _ _ h _ taken => h.step taken

/-- A record is in one of the places, or freed. -/
theorem Kept.once (h : Kept x) {r : Record} (stored : r ∈ x.stored) :
    x.places r + x.freed.count r = 1 := by
  have once : x.stored.count r = 1 := List.count_eq_one_of_mem h.nodup stored
  rw [← h.same.count_eq] at once
  simp only [List.count_append] at once
  rw [places]
  omega

theorem Kept.placed_iff (h : Kept x) : (∀ r ∈ x.stored, x.places r = 1) ↔ x.freed = [] := by
  constructor
  · intro placed
    by_contra some_
    obtain ⟨r, lost⟩ := List.exists_mem_of_ne_nil _ some_
    have stored : r ∈ x.stored := h.same.subset (by simp [lost])
    have once := h.once stored
    have here := placed r stored
    have counted := List.count_pos_iff.mpr lost
    omega
  · intro none r stored
    have once := h.once stored
    rwa [none] at once

theorem joined_freed (steps : Steps x .joined x') : x'.freed = [] ↔ x.Drained .joined := by
  cases x with
  | gone output stored freed => cases steps
  | alive w =>
    simp only [Steps, LogLife.step] at steps
    split at steps <;> cases steps
    constructor
    · intro none _ w' same
      cases same
      exact none
    · intro drained
      exact drained rfl w rfl

/-- Only the end of the destructor frees a record. -/
theorem freed_of_drained (drained : x.Drained a) (steps : Steps x a x') : x'.freed = [] := by
  cases a with
  | joined => exact (joined_freed steps).mpr drained
  | act a =>
    cases x with
    | gone output stored freed => cases steps
    | alive w =>
      obtain ⟨w', _, rfl⟩ := Option.map_eq_some_iff.mp steps
      rfl

/-- In every run in which the queue and `_buffer` hold no record when `Join` returns, each record that
`append_async` has stored is at every moment in one place: in the file, in the buffer that the consumer
writes, in the queue or in `_buffer`. When it returns with a record there, that is in none. -/
theorem record_in_one_place (bufsize bufSize kRollSize : Nat) (x : LogLife bufsize) :
    (Reaches Steps Drained (new bufsize bufSize kRollSize) x → ∀ r ∈ x.stored, x.places r = 1) ∧
    (Reaches Steps Free (new bufsize bufSize kRollSize) x → ∀ x', Steps x .joined x' →
      ((∀ r ∈ x'.stored, x'.places r = 1) ↔ x.Drained .joined)) := by
  constructor
  · intro run
    have none : x.freed = [] := by
      cases run with
      | start => rfl
      | step _ drained taken => exact freed_of_drained drained taken
    exact (kept_of_reaches run).placed_iff.mpr none
  · intro run x' steps
    rw [((kept_of_reaches run).step steps).placed_iff, joined_freed steps]

/-- `Join` finds nothing in the queue and in `_buffer`. -/
def drains : LogLife bufsize → LifeAct → Bool
  | alive w, .joined => w.behind.isEmpty
  | _, _ => true

theorem drains_drained (x : LogLife bufsize) (a : LifeAct) (check : x.drains a = true) :
    x.Drained a := by
  rintro rfl w rfl
  exact List.isEmpty_iff.mp check

/-- Four records in the four places; then the consumer passes through its loop again, the destructor
finds it in `wait_for`, and in the end all of them are in the file. -/
theorem record_in_one_place_joined : ∃ x y : LogLife 4, Reaches Steps Drained (new 4 2 0) x ∧
    (x.output.contents.length, x.writing.length, x.filled.length, x.current.length) = (1, 1, 1, 1) ∧
    (∀ r ∈ x.stored, x.places r = 1) ∧ Reaches Steps Drained x y ∧ y.stored = x.stored ∧
    (∃ output stored, y = gone output stored []) ∧ (∀ r ∈ y.stored, y.places r = 1) := by
  have both : ∃ x y : LogLife 4, [LifeAct.act (.appendAsync [1, 2, 3]), .act (.appendAsync [4]),
      .act .consumer, .act .consumer, .act .consumer, .act .consumer, .act .consumer,
      .act (.appendAsync [5, 6, 7]), .act .consumer, .act (.appendAsync [8])].foldlM
        (fun x a => if x.drains a then x.step a else none) (new 4 2 0) = some x ∧
      [LifeAct.act .consumer, .act .consumer, .act .consumer, .act .consumer, .act .consumer,
      .act .consumer, .act .destroy, .act .consumer, .act .consumer, .act .consumer, .act .consumer,
      .act .consumer, .joined].foldlM (fun x a => if x.drains a then x.step a else none) x = some y ∧
      (x.output.contents.length, x.writing.length, x.filled.length, x.current.length) = (1, 1, 1, 1) ∧
      y.stored = x.stored ∧ ∃ output stored, y = gone output stored [] :=
    ⟨_, _, rfl, rfl, rfl, rfl, _, _, rfl⟩
  obtain ⟨x, y, first, second, apart, same, ended⟩ := both
  have first := Reaches.of_checked step drains drains_drained _ first
  have second := Reaches.of_checked step drains drains_drained _ second
  exact ⟨x, y, first, apart, (record_in_one_place 4 2 0 x).1 first, second, same, ended,
    (record_in_one_place 4 2 0 y).1 (first.trans second)⟩

/-- A record comes between the consumer's last look at `_buffer` and its test of `_stop`, which the
destructor has set in the meantime. -/
theorem record_freed : ∃ x : LogLife 4, Reaches Steps Free (new 4 2 0) x ∧
    ∃ r ∈ x.stored, x.places r = 0 := by
  refine ⟨_, Reaches.of_labels step [.act (.appendAsync [1]), .act .consumer, .act .consumer,
    .act .consumer, .act (.appendAsync [2]), .act .destroy, .act .consumer, .act .consumer, .joined] rfl,
    ⟨1, [2]⟩, ?_⟩
  decide

end LogLife
end Yamq
