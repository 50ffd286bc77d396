import Yamq.Log.Lifetime
import Yamq.Log.Rolling
import Yamq.Log.FileHandle

/-! The log worker over the files: what `_output` does with the buffers that the consumer and `flush`
hand to it, when every `fwrite` is complete and any `fopen` of a `roll` may fail. The `FILE` buffers, so
that the last bytes come to the disk with a later `fwrite`, with `fflush` or with `fclose`. -/
namespace Yamq

open Transition Files

/-- The bytes of some records. -/
def textOf (records : List Record) : Bytes := records.flatMap Record.text

@[simp] theorem textOf_append (xs ys : List Record) : textOf (xs ++ ys) = textOf xs ++ textOf ys :=
  List.flatMap_append

theorem textOf_length (records : List Record) : (textOf records).length = textSize records := by
  simp [textOf, textSize, List.length_flatMap]

namespace LogWorker

variable {bufsize : Nat} {w w' : LogWorker bufsize}

/-- The buffer that a step hands to `_output->append`. -/
def block (w : LogWorker bufsize) : LogAct → Option (FixedBuffer bufsize)
  | .flushWrite => w.buffersFilled.head?
  | .consumer => match w.consumer with
    | .writing _ b => some b
    | _ => none
  | _ => none

/-- The records that a step hands over. -/
def handed (w : LogWorker bufsize) (a : LogAct) : List Record :=
  ((w.block a).map FixedBuffer.records).getD []

theorem appendAsync_output (w : LogWorker bufsize) (text : Bytes) :
    (w.appendAsync text).output = w.output := by
  have fresh (v : LogWorker bufsize) (r : Record) : (v.storeFresh r).output = v.output := by
    unfold storeFresh
    split <;> rfl
  unfold appendAsync
  dsimp only
  split
  · rfl
  · split
    · split
      · rfl
      · exact fresh ..
    · exact fresh ..

theorem wake_output (w : LogWorker bufsize) : w.wake.output = w.output := by
  unfold wake
  split
  · exact (takeBuffer_keeps _).1.trans (pushBuffer_keeps w).1
  · exact (takeBuffer_keeps w).1

theorem relock_output (w : LogWorker bufsize) (single : Bool) : (w.relock single).output = w.output := by
  unfold relock
  dsimp only
  split <;> rfl

/-- The contents of the files grow by what is handed over. -/
theorem output_step {a : LogAct} (steps : Steps w a w') :
    w'.output.contents = w.output.contents ++ w.handed a := by
  have quiet (v : LogWorker bufsize) (same : v.output = w.output) :
      v.output.contents = w.output.contents ++ [] := by rw [same, List.append_nil]
  cases a with
  | appendAsync text =>
    simp only [Steps, step] at steps
    split at steps <;> cases steps
    exact quiet _ (appendAsync_output ..)
  | flush =>
    simp only [Steps, step] at steps
    split at steps <;> cases steps
    exact quiet _ (pushBuffer_keeps w).1
  | flushWrite =>
    simp only [Steps, step, flushWrite] at steps
    split at steps
    · cases steps
    · split at steps <;> cases steps
      rename_i b rest queue
      have given : w.handed .flushWrite = b.records := by simp [handed, block, queue]
      rw [given]
      exact LogFile.contents_append ..
  | flushReturn =>
    simp only [Steps, step] at steps
    split at steps <;> cases steps
    exact quiet _ rfl
  | destroy =>
    simp only [Steps, step] at steps
    split at steps <;> cases steps
    exact quiet _ rfl
  | consumer =>
    simp only [Steps, step, consumerStep] at steps
    split at steps
    · rename_i pc
      have given : w.handed .consumer = [] := by simp [handed, block, pc]
      split at steps <;> cases steps
      rw [given]
      exact quiet _ (wake_output w)
    · rename_i single b pc
      have given : w.handed .consumer = b.records := by simp [handed, block, pc]
      cases steps
      rw [given]
      exact LogFile.contents_append ..
    · rename_i single pc
      have given : w.handed .consumer = [] := by simp [handed, block, pc]
      split at steps <;> cases steps
      rw [given]
      exact quiet _ (relock_output ..)
    · rename_i pc
      have given : w.handed .consumer = [] := by simp [handed, block, pc]
      cases steps
      rw [given]
      exact quiet _ rfl
    · rename_i pc
      have given : w.handed .consumer = [] := by simp [handed, block, pc]
      cases steps
      rw [given]
      exact quiet _ rfl
    · cases steps

theorem handed_short (w : LogWorker bufsize) (a : LogAct) : (textOf (w.handed a)).length ≤ bufsize := by
  rw [textOf_length, handed]
  cases w.block a with
  | none => exact Nat.zero_le _
  | some b => exact b.fits

end LogWorker

/-! The files. -/

namespace Files

/-- A session with the bytes of one more block. -/
def Session.add (x : Session) (data : Bytes) : Session :=
  if data = [] then x else { x with messages := x.messages ++ [data] }

theorem Session.add_text (x : Session) (data : Bytes) : (x.add data).text = x.text ++ data := by
  unfold add
  split
  · rename_i none
    rw [none, List.append_nil]
  · simp [text]

section
variable {before s : FileSystem} {base data : Bytes} {rollSize : Nat} {messages : List Bytes}
  {f : LogFile} {front : List Session} {last : Session}

/-- What `append` does behind the write. -/
theorem Logging.settles (h : Logging before base rollSize messages f s front last) (named : base ≠ [])
    {w : AppendFileWrapper} (count : w.writenChars = last.text.length)
    (rolls : Bool) :
    ∃ f' s' sessions x, (if 0 < f.kRollSize ∧ f.kRollSize ≤ w.writenChars then
        f.roll s rolls >>= fun r => .ok (r.2.1, r.2.2) else .ok (f, s)) = .ok (f', s') ∧
      Logging before base rollSize messages f' s' sessions x ∧
      (sessions = front ∧ x = last ∨ sessions = front ++ [last] ∧ x.text = []) := by
  by_cases full : 0 < f.kRollSize ∧ f.kRollSize ≤ w.writenChars
  · rw [if_pos full]
    cases rolls with
    | false =>
      rw [h.roll_fails named]
      exact ⟨f, s, front, last, rfl, h, .inl ⟨rfl, rfl⟩⟩
    | true =>
      have enough : rollSize ≤ last.text.length := by
        rw [← count, ← h.size]
        exact full.2
      obtain ⟨f', s', x, run, began⟩ := h.roll named enough
      rw [run]
      refine ⟨f', s', front ++ [last], x, rfl, began, .inr ⟨rfl, ?_⟩⟩
      -- the messages were all in the sessions before
      have whole := began.whole
      rw [List.flatMap_append, h.whole, List.append_right_eq_self, List.flatMap_singleton] at whole
      rw [Session.text, whole]
      rfl
  · rw [if_neg full]
    exact ⟨f, s, front, last, rfl, h, .inl ⟨rfl, rfl⟩⟩

/-- An append of any block goes to the last session, whole. -/
theorem Logging.appendBlock (h : Logging before base rollSize messages f s front last)
    (named : base ≠ []) (short : data.length < 18446744073709551616) (rolls : Bool) :
    ∃ f' s' messages' sessions x, f.appendFull s (data, rolls) = .ok (f', s') ∧
      Logging before base rollSize messages' f' s' sessions x ∧
      (sessions = front ∧ x = last.add data ∨ sessions = front ++ [last.add data] ∧ x.text = []) := by
  by_cases none : data = []
  · subst none
    obtain ⟨w, held, open_, count⟩ := h.current
    obtain ⟨f', s', sessions, x, run, logging, grown⟩ := h.settles named count rolls
    have same : { f with file := some w } = f := by rw [← held]
    have nothing : w.append s [] true [0] = .ok (0, w, s) := by
      simp [AppendFileWrapper.append]
    refine ⟨f', s', messages, sessions, x, ?_, logging, by rwa [Session.add, if_pos rfl]⟩
    rw [← run]
    simp only [LogFile.appendFull, LogFile.append, held, List.length_nil, nothing, ok_bind, same]
    split <;> simp only [bind_assoc, pure_ok, ok_bind]
  · obtain ⟨w, w', s', held, appends, written, count⟩ := h.write none short
    have longer : (last.add data) = { last with messages := last.messages ++ [data] } := if_neg none
    rw [← longer] at written
    obtain ⟨f', s'', sessions, x, run, logging, grown⟩ := written.settles named
      (by rw [count, longer]; rfl) rolls
    refine ⟨f', s'', _, sessions, x, ?_, logging, grown⟩
    rw [← run]
    simp only [LogFile.appendFull, LogFile.append, held, appends, ok_bind]
    split <;> simp only [bind_assoc, pure_ok, ok_bind]

end

end Files

/-- `_file->flush()` -/
def Files.LogFile.flush (f : Files.LogFile) (s : FileSystem) : Except Fault FileSystem :=
  match f.file with
  | none => .error .nullPointer
  | some w => w.flush s

namespace Files

variable {before s : FileSystem} {base : Bytes} {rollSize : Nat} {messages : List Bytes} {f : LogFile}
  {front : List Session} {last : Session}

theorem Logging.flush (h : Logging before base rollSize messages f s front last) : f.flush s = .ok s := by
  obtain ⟨w, held, open_, _⟩ := h.current
  obtain ⟨file, raw, _, stream⟩ := open_.stream
  simp only [LogFile.flush, held, AppendFileWrapper.flush, raw, FileSystem.fflush,
    FileSystem.inodeOf_open stream, ok_bind, pure_ok]

/-- The destructor closes the file, and what the sessions have written stays. -/
theorem Logging.drop (h : Logging before base rollSize messages f s front last) :
    ∃ s', f.drop s = .ok s' ∧ s'.bytes = s.bytes ∧
      KeptInOrder before base rollSize messages f s' (front ++ [last]) := by
  obtain ⟨w, held, open_, _⟩ := h.current
  obtain ⟨file, raw, _, stream⟩ := open_.stream
  refine ⟨s.closed file, ?_, rfl, h.whole, h.bytes, h.named, h.full, h.index, h.opened⟩
  simp only [LogFile.drop, held, AppendFileWrapper.destroy, raw, FileSystem.fclose_open stream]

end Files

/-- What happens next, with what `fopen` does in a roll and how many bytes the `FILE` holds back behind
an `fwrite`. -/
structure DiskAct where
  act : LifeAct
  rolls : Bool
  held : Nat
deriving DecidableEq, Repr

/-- The worker with its `LogFile` on the files, and how many of the last bytes of the open file are still
in the buffer of its `FILE`. -/
structure Disk (bufsize : Nat) where
  life : LogLife bufsize
  log : Files.LogFile
  system : FileSystem
  buffered : Nat := 0

namespace Disk

variable {bufsize : Nat}

/-- The size that `setbuffer` gives to the buffer of the `FILE`. -/
def bufSize : Nat := 1000

/-- The steps that call `_output->flush()`. -/
def flushes (w : LogWorker bufsize) (a : LogAct) : Bool :=
  a = .flushReturn || (a = .consumer && w.consumer = .flushing)

/-- What a step does to `_output`. The file that a roll leaves is closed, and with it its buffer goes to
the disk. -/
def output (d : Disk bufsize) (a : DiskAct) : Except Fault (Files.LogFile × FileSystem × Nat) :=
  match d.life, a.act with
  | .alive w, .act b =>
    match w.block b with
    | some buffer => do
      let (log, system) ← d.log.appendFull d.system (textOf buffer.records, a.rolls)
      let most := min bufSize (d.buffered + buffer.length)
      return (log, system, if log.rollIndex = d.log.rollIndex then min a.held most else 0)
    | none =>
      if flushes w b then do return (d.log, ← d.log.flush d.system, 0)
      else .ok (d.log, d.system, d.buffered)
  | .alive _, .joined => do return (d.log, ← d.log.drop d.system, 0)
  | .gone _ _ _, _ => .ok (d.log, d.system, d.buffered)

def Steps (d : Disk bufsize) (a : DiskAct) (d' : Disk bufsize) : Prop :=
  d.life.step a.act = some d'.life ∧ d.output a = .ok (d'.log, d'.system, d'.buffered)

/-- The worker behind its constructor, which has opened the first file. -/
structure Started (before : FileSystem) (dirname filename extension : Bytes) (bufSize rollSize : Nat)
    (d : Disk bufsize) : Prop where
  life : d.life = .new bufsize bufSize rollSize
  files : Files.LogFile.new dirname filename rollSize extension before true = .ok (d.log, d.system)
  buffered : d.buffered = 0

/-- What every run keeps. -/
structure Synced (before : FileSystem) (base : Bytes) (rollSize : Nat) (d : Disk bufsize) : Prop where
  kept : d.life.Kept
  files : ∃ messages front last, ∃ records : List (List Record),
    KeptInOrder before base rollSize messages d.log d.system (front ++ [last]) ∧
    d.log.file.map AppendFileWrapper.stIno = some last.ino ∧
    ((∃ w, d.life = .alive w) → Logging before base rollSize messages d.log d.system front last) ∧
    (front ++ [last]).map Session.text = records.map textOf ∧
    records.flatten = d.life.output.contents ∧ d.buffered ≤ min bufSize last.text.length

variable {before : FileSystem} {base : Bytes} {rollSize : Nat} {d d' : Disk bufsize}

/-- The last list of records grows, and an empty one may follow. -/
theorem grow_records {front : List Session} {last : Session} {records : List (List Record)}
    (same : (front ++ [last]).map Session.text = records.map textOf) (more : List Record) :
    ∃ grown : List (List Record), (front ++ [last.add (textOf more)]).map Session.text = grown.map textOf ∧
      grown.flatten = records.flatten ++ more := by
  rw [List.map_append, List.map_singleton] at same
  obtain ⟨init, tail, rfl, first, end_⟩ := List.map_eq_append_iff.mp same.symm
  obtain ⟨r, rest, rfl, text, none⟩ := List.map_eq_cons_iff.mp end_
  rw [List.map_eq_nil_iff] at none
  subst none
  refine ⟨init ++ [r ++ more], ?_, ?_⟩
  · simp only [List.map_append, List.map_singleton, first, Session.add_text, textOf_append, text]
  · simp

theorem logging_inode {messages : List Bytes} {f : Files.LogFile} {s : FileSystem} {front : List Session}
    {last : Session} (h : Logging before base rollSize messages f s front last) :
    f.file.map AppendFileWrapper.stIno = some last.ino := by
  obtain ⟨w, held, open_, _⟩ := h.current
  rw [held, Option.map_some, open_.stat]

/-- The index tells whether a roll has opened the next file. -/
theorem index_next (n : Nat) : (n + 1).toUInt32 ≠ n.toUInt32 := by
  intro same
  have next : n.toUInt32 + 1 = n.toUInt32 := (UInt32.ofNat_add ..).symm.trans same
  simp at next

/-- An append of a block: the `FILE` buffers bytes of the last session only. -/
theorem Synced.write (h : Synced before base rollSize d) (named : base ≠ [])
    (narrow : bufsize < 18446744073709551616) {w w' : LogWorker bufsize} (here : d.life = .alive w)
    {b : LogAct} (taken : w.step b = some w') {buffer : FixedBuffer bufsize}
    (block : w.block b = some buffer) (rolls : Bool) (held : Nat) :
    ∃ log system buffered, d.output ⟨.act b, rolls, held⟩ = .ok (log, system, buffered) ∧
      Synced before base rollSize ⟨.alive w', log, system, buffered⟩ := by
  have kept := LogLife.alive_kept ((h.kept.placed w here).step taken)
  have output := LogWorker.output_step taken
  have width := w.handed_short b
  have given : w.handed b = buffer.records := by rw [LogWorker.handed, block]; rfl
  rw [given] at output width
  obtain ⟨messages, front, last, records, inOrder, _, logging, texts, order, back⟩ := h.files
  rw [here] at order
  have short : (textOf buffer.records).length < 18446744073709551616 := by omega
  obtain ⟨f, s, messages', sessions, x, run, logging', grown⟩ :=
    (logging ⟨w, here⟩).appendBlock named short rolls
  obtain ⟨longer, texts', order'⟩ := grow_records texts buffer.records
  have whole : longer.flatten = w'.output.contents := by
    rw [order', order]
    exact output.symm
  have outputs : d.output ⟨.act b, rolls, held⟩ = .ok (f, s, if f.rollIndex = d.log.rollIndex then
      min held (min bufSize (d.buffered + buffer.length)) else 0) := by
    simp only [Disk.output, here, block, run, ok_bind, pure_ok]
  refine ⟨_, _, _, outputs, kept, messages', sessions, x, ?_⟩
  have index := logging'.index
  rcases grown with ⟨rfl, rfl⟩ | ⟨rfl, none⟩
  · refine ⟨longer, logging'.toKeptInOrder, logging_inode logging', fun _ => logging', texts', whole, ?_⟩
    have wider : (last.add (textOf buffer.records)).text.length = last.text.length + buffer.length := by
      rw [Session.add_text, List.length_append, textOf_length, FixedBuffer.length]
    dsimp only
    rw [wider]
    split <;> omega
  · have whole : (longer ++ [[]]).flatten = w'.output.contents := by simpa using whole
    refine ⟨longer ++ [[]], logging'.toKeptInOrder, logging_inode logging', fun _ => logging', ?_,
      whole, ?_⟩
    · rw [List.map_append, texts', List.map_append, List.map_singleton, List.map_singleton, none]
      rfl
    · have next : f.rollIndex ≠ d.log.rollIndex := by
        rw [index, inOrder.index]
        simp only [List.length_append, List.length_singleton]
        exact index_next _
      rw [if_neg next]
      exact Nat.zero_le _

/-- Every step has what it does to `_output`, and what every run keeps is kept. -/
theorem Synced.step (h : Synced before base rollSize d) (named : base ≠ [])
    (narrow : bufsize < 18446744073709551616) {a : DiskAct} {life' : LogLife bufsize}
    (taken : d.life.step a.act = some life') : ∃ log system buffered,
      Steps d a ⟨life', log, system, buffered⟩ ∧
      Synced before base rollSize ⟨life', log, system, buffered⟩ := by
  obtain ⟨act, rolls, held⟩ := a
  have kept := h.kept.step taken
  obtain ⟨messages, front, last, records, inOrder, inode, logging, texts, order, back⟩ := h.files
  cases here : d.life with
  | gone => rw [here] at taken; cases taken
  | alive w =>
    have now := logging ⟨w, here⟩
    rw [here] at taken order
    cases act with
    | joined =>
      obtain ⟨s, drop, bytes, closed⟩ := now.drop
      have outputs : d.output ⟨.joined, rolls, held⟩ = .ok (d.log, s, 0) := by
        simp only [output, here, drop, ok_bind, pure_ok]
      refine ⟨_, _, _, ⟨by rw [here]; exact taken, outputs⟩, kept, messages, front, last, records,
        closed, inode, ?_, texts, ?_, Nat.zero_le _⟩
      · rintro ⟨w', same⟩
        simp only [LogLife.step] at taken
        split at taken <;> cases taken
        cases same
      · simp only [LogLife.step] at taken
        split at taken <;> cases taken
        exact order
    | act b =>
      obtain ⟨w', step, rfl⟩ := Option.map_eq_some_iff.mp taken
      cases block : w.block b with
      | some buffer =>
        obtain ⟨f, s, buffered, outputs, synced⟩ := h.write named narrow here step block rolls held
        exact ⟨f, s, buffered, ⟨by rw [here]; exact taken, outputs⟩, synced⟩
      | none =>
        have nothing : w.handed b = [] := by rw [LogWorker.handed, block]; rfl
        have same : records.flatten = w'.output.contents := by
          rw [LogWorker.output_step step, nothing, List.append_nil]
          exact order
        cases flush : flushes w b with
        | true =>
          have outputs : d.output ⟨.act b, rolls, held⟩ = .ok (d.log, d.system, 0) := by
            simp only [output, here, block, flush, if_true, now.flush, ok_bind, pure_ok]
          exact ⟨_, _, _, ⟨by rw [here]; exact taken, outputs⟩, kept, messages, front, last, records,
            inOrder, inode, fun _ => now, texts, same, Nat.zero_le _⟩
        | false =>
          have outputs : d.output ⟨.act b, rolls, held⟩ = .ok (d.log, d.system, d.buffered) := by
            simp only [output, here, block, flush, Bool.false_eq_true, if_false]
          exact ⟨_, _, _, ⟨by rw [here]; exact taken, outputs⟩, kept, messages, front, last, records,
            inOrder, inode, fun _ => now, texts, same, back⟩

theorem Synced.keeps (h : Synced before base rollSize d) (named : base ≠ [])
    (narrow : bufsize < 18446744073709551616) {a : DiskAct} (steps : Steps d a d') :
    Synced before base rollSize d' := by
  obtain ⟨f, s, buffered, taken, synced⟩ := h.step named narrow steps.1
  cases taken.2.symm.trans steps.2
  exact synced

/-- Behind a flush and behind the destructor the `FILE` buffers nothing. -/
theorem Synced.flushed (h : Synced before base rollSize d) {a : DiskAct}
    (ends : a.act = .act .flushReturn ∨ a.act = .joined) (steps : Steps d a d') : d'.buffered = 0 := by
  obtain ⟨act, rolls, held⟩ := a
  obtain ⟨life', log', system', buffered'⟩ := d'
  obtain ⟨messages, front, last, records, _, _, logging, _⟩ := h.files
  have outputs := steps.2
  cases here : d.life with
  | gone => rw [Steps, here] at steps; cases steps.1
  | alive w =>
    have now := logging ⟨w, here⟩
    rcases ends with rfl | rfl
    · have none : w.block .flushReturn = none := rfl
      have flush : flushes w .flushReturn = true := rfl
      simp only [output, here, none, flush, if_true, now.flush, ok_bind, pure_ok] at outputs
      cases outputs
      rfl
    · obtain ⟨s, drop, _⟩ := now.drop
      simp only [output, here, drop, ok_bind, pure_ok] at outputs
      cases outputs
      rfl

theorem Started.synced {dirname filename extension : Bytes} {bufSize : Nat}
    (h : Started before dirname filename extension bufSize rollSize d) :
    Synced before (dirname ++ ascii "/" ++ filename ++ ascii "." ++ extension) rollSize d := by
  obtain ⟨f, s, last, built, logging⟩ := logging_start dirname filename extension rollSize before
  obtain ⟨life, log, system, buffered⟩ := d
  obtain ⟨started, files, none⟩ := h
  cases started
  cases none
  cases built.symm.trans files
  have whole := logging.whole
  rw [List.nil_append, List.flatMap_singleton] at whole
  refine ⟨LogLife.new_kept .., [], [], last, [[]], logging.toKeptInOrder, logging_inode logging,
    fun _ => logging, ?_, rfl, Nat.zero_le _⟩
  simp only [List.nil_append, List.map_singleton, Session.text, whole]
  rfl

/-- The step that there is, if any. -/
def next (d : Disk bufsize) (a : DiskAct) : Option (Disk bufsize) := do
  let life ← d.life.step a.act
  let (log, system, buffered) ← (d.output a).toOption
  return { life, log, system, buffered }

theorem reaches_next (acts : List DiskAct) (run : acts.foldlM next d = some d') :
    Reaches Steps Free d d' := by
  refine (Runs.of_function next (fun d a d' taken => ⟨trivial, ?_⟩) acts run).reaches
  obtain ⟨life, first, taken⟩ := Option.bind_eq_some_iff.mp taken
  obtain ⟨r, second, taken⟩ := Option.bind_eq_some_iff.mp taken
  cases taken
  exact ⟨first, toOption_eq_some.mp second⟩

end Disk
end Yamq
