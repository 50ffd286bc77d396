import Yamq.Log.LogFile

/-! How long the log files get, when every `fwrite` is complete and any `fopen` may fail. -/
namespace Yamq.Files

open Transition

/-- A wrapper whose `FILE` is open, on the inode that its name stands for. -/
structure Open (w : AppendFileWrapper) (s : FileSystem) (ino : Nat) : Prop where
  valid : w.valid = true
  stream : ∃ file, w.raw = some file ∧ file < s.opened ∧ s.streams file = some ino
  name : s.names w.filepath = some ino
  stat : w.stIno = ino

namespace FileSystem

variable {s : FileSystem}

theorem create_names (s : FileSystem) (path : Bytes) :
    (s.create path).1.names path = some (s.create path).2 := by
  unfold create
  split
  · assumption
  · exact Function.update_self ..

theorem create_keeps (s : FileSystem) (path : Bytes) : (s.create path).1.bytes = s.bytes ∧
    (s.create path).1.streams = s.streams ∧ (s.create path).1.opened = s.opened := by
  unfold create
  split <;> exact ⟨rfl, rfl, rfl⟩

theorem create_names_kept (s : FileSystem) (path other : Bytes) (ino : Nat)
    (named : s.names other = some ino) : (s.create path).1.names other = some ino := by
  unfold create
  split
  · exact named
  · rename_i free
    have apart : other ≠ path := by
      rintro rfl
      rw [named] at free
      cases free
    exact (Function.update_of_ne apart ..).trans named

end FileSystem

/-- A `FILE` has been opened on a name, and nothing has been counted on it yet. -/
structure Begun (s : FileSystem) (filepath : Bytes) (w : AppendFileWrapper) (s' : FileSystem)
    (ino : Nat) :
    Prop where
  open_ : Open w s' ino
  path : w.filepath = filepath
  count : w.writenChars = 0
  bytes : s'.bytes = s.bytes
  opened : s'.opened = s.opened + 1
  names : ∀ other i, s.names other = some i → s'.names other = some i

section
variable {w : AppendFileWrapper} {s : FileSystem} {ino : Nat}

/-- A new wrapper is open, on a `FILE` of its own. -/
theorem new_open (filepath : Bytes) (s : FileSystem) :
    ∃ w s' ino, AppendFileWrapper.new filepath s true = (w, s') ∧ Begun s filepath w s' ino ∧
      w.raw = some s.opened ∧ ∀ file < s.opened, s'.streams file = s.streams file := by
  obtain ⟨bytes, streams, opened⟩ := s.create_keeps filepath
  have name := s.create_names filepath
  have names := s.create_names_kept filepath
  have built : AppendFileWrapper.new filepath s true = (
      { filepath, valid := true, raw := some (s.create filepath).1.opened
        stIno := (s.create filepath).2 },
      { (s.create filepath).1 with
        streams := Function.update (s.create filepath).1.streams (s.create filepath).1.opened
          (some (s.create filepath).2)
        opened := (s.create filepath).1.opened + 1 }) := rfl
  generalize s.create filepath = made at bytes streams opened name names built
  refine ⟨_, _, made.2, built, ⟨⟨rfl, ⟨made.1.opened, rfl, ?_, Function.update_self ..⟩, name, rfl⟩,
    rfl, rfl, bytes, ?_, names⟩, ?_, fun file old => ?_⟩
  · exact Nat.lt_succ_self _
  · rw [← opened]
  · rw [← opened]
  · rw [← streams]
    rw [← opened] at old
    exact Function.update_of_ne (Nat.ne_of_lt old) ..

theorem Open.checkIfOpen (h : Open w s ino) (opens : Bool) : w.checkIfOpen s opens = .ok (0, w, s) := by
  refine if_pos ?_
  rw [h.name, h.stat]

theorem Open.inodeOf (h : Open w s ino) : s.inodeOf w.raw = .ok ino := by
  obtain ⟨file, raw, _, stream⟩ := h.stream
  rw [raw, FileSystem.inodeOf_open stream]

/-- A complete write goes to the end of the file. -/
theorem Open.append (h : Open w s ino) {data : Bytes} (some_ : data ≠ [])
    (short : data.length < 18446744073709551616) (opens : Bool) : w.append s data opens [data.length] =
      .ok (data.length, { w with writenChars := w.writenChars + data.length },
        { s with bytes := Function.update s.bytes ino (s.bytes ino ++ data) }) := by
  have left : toSize (((data.length : Nat) : Int) - (data.length : Nat)) = 0 := by
    rw [Int.sub_self]
    exact toSize_small (by decide) (by decide)
  have all : toSize (((data.length : Nat) : Int) - (0 : Nat)) = data.length := by
    rw [toSize_small] <;> omega
  have some_bytes : data.length ≠ 0 := fun none => some_ (List.length_eq_zero_iff.mp none)
  rw [AppendFileWrapper.append_checked h.valid some_ (h.checkIfOpen opens),
    AppendFileWrapper.fwriteLoop_cons h.inodeOf, if_neg some_bytes, if_pos left, List.take_length,
    Except.map, all]
  rfl

end

/-- The wrapper that `_file` holds can be destroyed. -/
def Droppable (f : LogFile) (s : FileSystem) : Prop :=
  ∀ w, f.file = some w → ∃ file ino, w.raw = some file ∧ file < s.opened ∧ s.streams file = some ino

/-- The next file is in place. -/
def LogFile.rolled (f : LogFile) (w : AppendFileWrapper) : LogFile :=
  { f with filepath := f.basePath, file := some w, rollIndex := f.rollIndex + 1 }

/-- A `roll` whose `fopen` succeeds. -/
theorem roll_open {f : LogFile} {s : FileSystem} (held : Droppable f s) :
    ∃ w s' ino, f.roll s true = .ok (true, f.rolled w, s') ∧ Begun s f.rollPath w s' ino := by
  obtain ⟨w, s', ino, made, begun, raw, others⟩ := new_open f.rollPath s
  have valid : w.valid = true := begun.open_.valid
  cases old : f.file with
  | none =>
    refine ⟨w, s', ino, ?_, begun⟩
    simp only [LogFile.roll, made, valid, if_true, LogFile.drop, old, ok_bind, pure_ok, LogFile.rolled]
  | some w' =>
    obtain ⟨file, ino', raw', young, stream⟩ := held w' old
    have closes : s'.fclose w'.raw = .ok (s'.closed file) := by
      rw [raw', FileSystem.fclose_open ((others file young).trans stream)]
    have apart : some file ≠ some s.opened := fun same => Nat.ne_of_lt young (Option.some.inj same)
    refine ⟨w, s'.closed file, ino, ?_, ⟨⟨valid, ⟨s.opened, raw, ?_, ?_⟩, begun.open_.name,
      begun.open_.stat⟩, begun.path, begun.count, begun.bytes, begun.opened, begun.names⟩⟩
    · simp only [LogFile.roll, made, valid, if_true, LogFile.drop, old, AppendFileWrapper.destroy, closes,
        ok_bind, pure_ok, LogFile.rolled]
    · change s.opened < s'.opened
      rw [begun.opened]
      exact Nat.lt_succ_self _
    · obtain ⟨file', raw'', _, here⟩ := begun.open_.stream
      cases raw.symm.trans raw''
      exact (if_neg apart).trans here

theorem Open.droppable {f : LogFile} {s : FileSystem} {w : AppendFileWrapper} {ino : Nat}
    (h : Open w s ino) (held : f.file = some w) : Droppable f s := by
  intro w' same
  cases held.symm.trans same
  obtain ⟨file, raw, young, stream⟩ := h.stream
  exact ⟨file, ino, raw, young, stream⟩

/-- A write of any length. -/
theorem Open.writes {w : AppendFileWrapper} {s : FileSystem} {ino : Nat} (h : Open w s ino) {data : Bytes}
    (short : data.length < 18446744073709551616) (opens : Bool) :
    ∃ w', w.append s data opens [data.length] = .ok (data.length, w', s.extended ino data) ∧
      Open w' (s.extended ino data) ino ∧ w'.writenChars = w.writenChars + data.length := by
  by_cases nothing : data = []
  · subst nothing
    have same : s.extended ino [] = s := by
      rw [FileSystem.extended, List.append_nil, Function.update_eq_self]
    rw [same]
    exact ⟨w, if_pos (Bool.or_eq_true_iff.mpr (.inr rfl)), h, rfl⟩
  · exact ⟨_, h.append nothing short opens, ⟨h.valid, h.stream, h.name, h.stat⟩, rfl⟩

/-- What `append` does behind its write. The next file counts from zero, and a roll that fails leaves
the old one. -/
theorem Open.settles {f : LogFile} {w : AppendFileWrapper} {s : FileSystem} {ino : Nat}
    (h : Open w s ino) (held : f.file = some w) (inside : w.writenChars ≤ (s.bytes ino).length)
    (rolls : Bool) :
    ∃ f' s', (if 0 < f.kRollSize ∧ f.kRollSize ≤ w.writenChars then
        f.roll s rolls >>= fun r => .ok (r.2.1, r.2.2) else .ok (f, s)) = .ok (f', s') ∧
      f'.kRollSize = f.kRollSize ∧ s'.bytes = s.bytes ∧ ∃ x i, f'.file = some x ∧ Open x s' i ∧
        x.writenChars ≤ (s'.bytes i).length := by
  by_cases full : 0 < f.kRollSize ∧ f.kRollSize ≤ w.writenChars
  · rw [if_pos full]
    cases rolls with
    | false => exact ⟨_, s, rfl, rfl, rfl, w, ino, held, h, inside⟩
    | true =>
      obtain ⟨x, s', i, run, begun⟩ := roll_open (h.droppable held)
      rw [run]
      refine ⟨_, s', rfl, rfl, begun.bytes, x, i, rfl, begun.open_, ?_⟩
      rw [begun.count]
      exact Nat.zero_le _
  · rw [if_neg full]
    exact ⟨f, s, rfl, rfl, rfl, w, ino, held, h, inside⟩

/-- A process that logs, and what it has done to the files: the length of the last message that each
inode got. -/
structure LogProcess where
  log : LogFile
  system : FileSystem
  last : Nat → Nat := fun _ => 0

/-- What happens next, with what `fopen` does in the roll or in the constructor. -/
inductive LogOp where
  | append (data : Bytes) (rolls : Bool)
  | restart (opens : Bool)
deriving DecidableEq, Repr

namespace LogProcess

/-- The inode of the file that is open. -/
def current (p : LogProcess) : Option Nat := do p.system.streams (← (← p.log.file).raw)

def noted (p : LogProcess) (data : Bytes) : Nat → Nat :=
  match p.current with
  | some ino => if data = [] then p.last else Function.update p.last ino data.length
  | none => p.last

/-- One append, or a new process with a `LogFile` on the same directory and name. -/
def next (p : LogProcess) : LogOp → Except Fault LogProcess
  | .append data rolls => do
    let (_, log, system) ← p.log.append p.system data true [data.length] rolls
    return { log, system, last := p.noted data }
  | .restart opens => do
    let (log, system) ← LogFile.new p.log.dirname p.log.filename p.log.kRollSize p.log.extension
      (← p.log.drop p.system) opens
    return { log, system, last := p.last }

/-- The first process on an empty directory. -/
def start (dirname filename extension : Bytes) (rollSize : Nat) (opens : Bool) :
    Except Fault LogProcess := do
  let (log, system) ← LogFile.new dirname filename rollSize extension {} opens
  return { log, system }

def Steps (p : LogProcess) (op : LogOp) (p' : LogProcess) : Prop := p.next op = .ok p'

/-- The open file has more than the roll size. Either it had bytes when it was opened, which
`_writenChars` does not count, or a roll has failed since. -/
def Overfull (p : LogProcess) : Prop :=
  ∃ w ino, p.log.file = some w ∧ p.current = some ino ∧ p.log.kRollSize < (p.system.bytes ino).length ∧
    (w.writenChars < (p.system.bytes ino).length ∨ p.log.kRollSize ≤ w.writenChars)

/-- No message goes to an overfull file. The length of a message is a `size_t`. -/
def Spared (p : LogProcess) : LogOp → Prop
  | .append data _ => data.length < 18446744073709551616 ∧ (data = [] ∨ ¬ p.Overfull)
  | .restart _ => True

/-- What such runs keep. -/
structure Kept (p : LogProcess) : Prop where
  positive : 0 < p.log.kRollSize
  open_ : ∀ w, p.log.file = some w → ∃ ino, Open w p.system ino ∧
    w.writenChars ≤ (p.system.bytes ino).length
  sizes : ∀ ino, (p.system.bytes ino).length ≤ p.log.kRollSize + p.last ino

variable {p p' : LogProcess} {op : LogOp} {data : Bytes}

theorem current_open {w : AppendFileWrapper} {ino : Nat} (held : p.log.file = some w)
    (h : Open w p.system ino) : p.current = some ino := by
  obtain ⟨file, raw, _, stream⟩ := h.stream
  simp only [current, held, raw, Option.bind_eq_bind, Option.bind_some, stream]

theorem holds_of_current {ino : Nat} (current : p.current = some ino) : ∃ w, p.log.file = some w := by
  obtain ⟨w, held, _⟩ := Option.bind_eq_some_iff.mp current
  exact ⟨w, held⟩

/-- A new process on files that keep to their size. -/
theorem new_kept (dirname filename extension : Bytes) (before : FileSystem) {rollSize : Nat}
    (positive : 0 < rollSize) (last : Nat → Nat)
    (sizes : ∀ ino, (before.bytes ino).length ≤ rollSize + last ino) (opens : Bool) :
    ∃ log system, LogFile.new dirname filename rollSize extension before opens = .ok (log, system) ∧
      Kept { log, system, last } ∧ log.kRollSize = rollSize := by
  cases opens with
  | false =>
    refine ⟨_, _, rfl, ⟨positive, ?_, sizes⟩, rfl⟩
    intro w none
    cases none
  | true =>
    let fresh : LogFile := { dirname, filename, extension, kRollSize := rollSize }
    have held : Droppable fresh before := by
      intro w none
      cases none
    obtain ⟨w, s, ino, run, begun⟩ := roll_open held
    have built : LogFile.new dirname filename rollSize extension before true =
        .ok (fresh.rolled w, s) := by
      change (fresh.roll before true >>= fun r => pure (r.2.1, r.2.2)) = _
      rw [run]
      rfl
    refine ⟨_, _, built, ⟨positive, ?_, ?_⟩, rfl⟩
    · intro w' same
      cases same
      refine ⟨ino, begun.open_, ?_⟩
      rw [begun.count]
      exact Nat.zero_le _
    · rw [begun.bytes]
      exact sizes

theorem start_kept {dirname filename extension : Bytes} {rollSize : Nat} {opens : Bool}
    (positive : 0 < rollSize) (begins : start dirname filename extension rollSize opens = .ok p) :
    Kept p ∧ p.log.kRollSize = rollSize := by
  obtain ⟨log, system, built, kept, size⟩ := new_kept dirname filename extension {} positive
    (fun _ => 0) (fun _ => Nat.zero_le _) opens
  have made : start dirname filename extension rollSize opens = .ok { log, system } := by
    simp only [start, built, ok_bind, pure_ok]
  cases made.symm.trans begins
  exact ⟨kept, size⟩

/-- An append: the message goes to the open file, whatever the roll behind it does. -/
theorem Kept.append (h : Kept p) {ino : Nat} (current : p.current = some ino)
    (short : data.length < 18446744073709551616) (rolls : Bool) :
    ∃ p', p.next (.append data rolls) = .ok p' ∧ p'.log.kRollSize = p.log.kRollSize ∧
      p'.last = p.noted data ∧
      p'.system.bytes = Function.update p.system.bytes ino (p.system.bytes ino ++ data) ∧
      ∀ w, p'.log.file = some w → ∃ x, Open w p'.system x ∧
        w.writenChars ≤ (p'.system.bytes x).length := by
  obtain ⟨w, held⟩ := holds_of_current current
  obtain ⟨ino', open_, inside⟩ := h.open_ w held
  cases current.symm.trans (current_open held open_)
  obtain ⟨w', writes, open', count⟩ := open_.writes short true
  have longer : w'.writenChars ≤ ((p.system.extended ino data).bytes ino).length := by
    rw [count, FileSystem.extended_bytes, List.length_append]
    exact Nat.add_le_add_right inside _
  obtain ⟨f, s, run, size, bytes, x, i, held', open'', inside'⟩ :=
    open'.settles (f := { p.log with file := some w' }) rfl longer rolls
  refine ⟨{ log := f, system := s, last := p.noted data }, ?_, size, rfl, bytes, ?_⟩
  · have appends : (p.log.append p.system data true [data.length] rolls >>= fun r =>
        .ok (r.2.1, r.2.2)) = .ok (f, s) := by
      rw [← run]
      simp only [LogFile.append, held, writes, ok_bind]
      split <;> simp only [bind_assoc, pure_ok, ok_bind]
    obtain ⟨r, done, same⟩ := bind_eq_ok.mp appends
    cases same
    simp only [next, done, ok_bind, pure_ok]
  · intro w'' same
    cases held'.symm.trans same
    exact ⟨i, open'', inside'⟩

/-- A restart opens a file as it is, and counts from zero. -/
theorem Kept.restart (h : Kept p) (opens : Bool) : ∃ p', p.next (.restart opens) = .ok p' ∧ Kept p' ∧
    p'.log.kRollSize = p.log.kRollSize := by
  have closes : ∃ s, p.log.drop p.system = .ok s ∧ s.bytes = p.system.bytes := by
    cases held : p.log.file with
    | none => exact ⟨p.system, by rw [LogFile.drop, held], rfl⟩
    | some w =>
      obtain ⟨ino, open_, _⟩ := h.open_ w held
      obtain ⟨file, raw, _, stream⟩ := open_.stream
      refine ⟨p.system.closed file, ?_, rfl⟩
      simp only [LogFile.drop, held, AppendFileWrapper.destroy, raw, FileSystem.fclose_open stream]
  obtain ⟨s, closed, bytes⟩ := closes
  have sizes : ∀ ino, (s.bytes ino).length ≤ p.log.kRollSize + p.last ino := by
    rw [bytes]
    exact h.sizes
  obtain ⟨log, system, built, kept, size⟩ :=
    new_kept p.log.dirname p.log.filename p.log.extension s h.positive p.last sizes opens
  refine ⟨_, ?_, kept, size⟩
  simp only [next, closed, built, ok_bind, pure_ok]

/-- An append needs a file. -/
theorem append_current {rolls : Bool} (h : Kept p) (steps : Steps p (.append data rolls) p') :
    ∃ ino, p.current = some ino := by
  cases held : p.log.file with
  | none =>
    simp only [Steps, next, LogFile.append, held] at steps
    cases steps
  | some w =>
    obtain ⟨ino, open_, _⟩ := h.open_ w held
    exact ⟨ino, current_open held open_⟩

/-- What an open file has beyond the roll size makes it overfull. -/
theorem overfull_iff {ino : Nat} (current : p.current = some ino) :
    p.Overfull ↔ p.log.kRollSize < (p.system.bytes ino).length := by
  constructor
  · rintro ⟨w, ino', _, current', beyond, _⟩
    cases current.symm.trans current'
    exact beyond
  · intro beyond
    obtain ⟨w, held⟩ := holds_of_current current
    refine ⟨w, ino, held, current, beyond, ?_⟩
    omega

theorem Kept.step (h : Kept p) (spared : Spared p op) (steps : Steps p op p') :
    Kept p' ∧ p'.log.kRollSize = p.log.kRollSize := by
  cases op with
  | restart opens =>
    obtain ⟨_, run, kept, size⟩ := h.restart opens
    cases run.symm.trans steps
    exact ⟨kept, size⟩
  | append data rolls =>
    obtain ⟨ino, current⟩ := append_current h steps
    obtain ⟨_, run, size, last, bytes, open_⟩ := h.append current spared.1 rolls
    cases run.symm.trans steps
    refine ⟨⟨by rw [size]; exact h.positive, open_, fun y => ?_⟩, size⟩
    rw [bytes, last, size, noted, current]
    dsimp only
    by_cases nothing : data = []
    · rw [if_pos nothing, nothing, List.append_nil, Function.update_eq_self]
      exact h.sizes y
    · rw [if_neg nothing]
      by_cases same : y = ino
      · have within := mt (overfull_iff current).mpr (spared.2.resolve_left nothing)
        rw [same, Function.update_self, Function.update_self, List.length_append]
        omega
      · rw [Function.update_of_ne same, Function.update_of_ne same]
        exact h.sizes y

end LogProcess

end Yamq.Files
