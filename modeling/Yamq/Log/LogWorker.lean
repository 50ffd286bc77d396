import Yamq.Machine
import Yamq.Lib.Transition
import Mathlib.Algebra.GroupWithZero.Nat

/-! `log/asynclogging.cpp`: producers fill buffers under the lock, and a consumer thread takes them out
and writes them without it. A step is a section under the lock, or one action of the consumer outside
of it; `flush` keeps the lock while it writes, so that only the consumer's write can fall between two
of its own. -/
namespace Yamq

/-- One message, with its number among those that `append_async` has stored. -/
structure Record where
  ticket : Nat
  text : Bytes
deriving DecidableEq, Repr

def textSize (records : List Record) : Nat := (records.map fun r => r.text.length).sum

theorem textSize_append (xs ys : List Record) : textSize (xs ++ ys) = textSize xs + textSize ys := by
  simp [textSize]

structure FixedBuffer (bufsize : Nat) where
  records : List Record
  fits : textSize records ≤ bufsize
deriving DecidableEq, Repr

namespace FixedBuffer

variable {bufsize : Nat}

/-- A new buffer, and one after `reset`. -/
def empty : FixedBuffer bufsize := ⟨[], Nat.zero_le _⟩

def length (b : FixedBuffer bufsize) : Nat := textSize b.records

def remain (b : FixedBuffer bufsize) : Nat := bufsize - b.length

def append (b : FixedBuffer bufsize) (r : Record) : Bool × FixedBuffer bufsize :=
  if small : r.text.length ≤ b.remain then
    (true, ⟨b.records ++ [r], by
      have fits := b.fits
      have one : textSize [r] = r.text.length := by simp [textSize]
      unfold remain length at small
      rw [textSize_append, one]
      omega⟩)
  else (false, b)

theorem append_records (b : FixedBuffer bufsize) (r : Record) :
    (b.append r).2.records = if (b.append r).1 then b.records ++ [r] else b.records := by
  unfold append
  split <;> rfl

end FixedBuffer

/-- The files behind `LogFile`, the one that is open last. Every write is complete, and every roll
opens a file. What a `FILE` still buffers counts as written, so that `_output->flush()` does nothing here;
`Disk` has the buffers, and what `fflush` and `fclose` do to them. -/
structure LogFile where
  rolled : List (List Record) := []
  file : List Record := []
  kRollSize : Nat
deriving DecidableEq, Repr

namespace LogFile

def append (f : LogFile) (data : List Record) : LogFile :=
  let file := f.file ++ data
  if 0 < f.kRollSize ∧ f.kRollSize ≤ textSize file then
    { f with rolled := f.rolled ++ [file], file := [] }
  else { f with file := file }

def contents (f : LogFile) : List Record := f.rolled.flatten ++ f.file

@[simp] theorem contents_append (f : LogFile) (data : List Record) :
    (f.append data).contents = f.contents ++ data := by
  unfold append
  dsimp only
  split <;> simp [contents]

end LogFile

/-- Where `threadFunc` stands. `single` is the branch that writes `_buffer` itself. -/
inductive ConsumerPc (bufsize : Nat) where
  | waiting                                              -- in `wait_for`, or on its way there
  | writing (single : Bool) (buffer : FixedBuffer bufsize)  -- without the lock, before the write
  | written (single : Bool)                              -- `buffer` is written and reset
  | flushing                                             -- before `_output->flush()`
  | testing                                              -- before `if (_stop)`
  | exited
deriving DecidableEq, Repr

structure LogWorker (bufsize : Nat) where
  buffersFilled : List (FixedBuffer bufsize) := []
  buffersAvailable : List (FixedBuffer bufsize)
  buffer : Option (FixedBuffer bufsize)
  stop : Bool := false
  output : LogFile
  consumer : ConsumerPc bufsize := .waiting
  /-- a `flush` holds the lock, with what had been stored when it took it -/
  flushing : Option (List Record) := none
  /-- what `append_async` has stored, in order -/
  stored : List Record := []
deriving DecidableEq, Repr

inductive LogAct where
  | appendAsync (text : Bytes)
  | flush
  | flushWrite     -- one turn of its loop
  | flushReturn
  | destroy        -- the part of the destructor before `Join`; `LogLife` has the rest
  | consumer
deriving DecidableEq, Repr

namespace LogWorker

variable {bufsize : Nat}

/-- `_buffer->append(data, len)` for the buffer that becomes or stays `_buffer`. -/
def store (w : LogWorker bufsize) (b : FixedBuffer bufsize) (r : Record) : LogWorker bufsize :=
  { w with
    buffer := some (b.append r).2
    stored := if (b.append r).1 then w.stored ++ [r] else w.stored }

/-- The end of `append_async`, where `_buffer` is null. A message is dropped when no buffer is left. -/
def storeFresh (w : LogWorker bufsize) (r : Record) : LogWorker bufsize :=
  match w.buffersAvailable.getLast? with
  | some b => { w with buffersAvailable := w.buffersAvailable.dropLast }.store b r
  | none => w

def appendAsync (w : LogWorker bufsize) (text : Bytes) : LogWorker bufsize :=
  let r := Record.mk w.stored.length text
  if w.stop then w
  else
    match w.buffer with
    | some b =>
      if text.length < b.remain then w.store b r
      else { w with buffersFilled := w.buffersFilled ++ [b], buffer := none }.storeFresh r
    | none => w.storeFresh r

/-- `_buffersFilled.push(std::move(_buffer))` if there is one. -/
def pushBuffer (w : LogWorker bufsize) : LogWorker bufsize :=
  match w.buffer with
  | some b => { w with buffersFilled := w.buffersFilled ++ [b], buffer := none }
  | none => w

def flush (w : LogWorker bufsize) : LogWorker bufsize :=
  { w.pushBuffer with flushing := some w.stored }

def flushWrite (w : LogWorker bufsize) : Option (LogWorker bufsize) :=
  match w.buffersFilled with
  | b :: rest => some { w with
      buffersFilled := rest
      output := w.output.append b.records
      buffersAvailable := w.buffersAvailable ++ [FixedBuffer.empty] }
  | [] => none

/-- The two branches of `threadFunc`, up to their `unlock` or to the `continue`. -/
def takeBuffer (w : LogWorker bufsize) : LogWorker bufsize :=
  match w.buffersFilled with
  | [] =>
    match w.buffer with
    | some b => if b.length = 0 then w else { w with consumer := .writing true b, buffer := none }
    | none => w
  | b :: rest => { w with consumer := .writing false b, buffersFilled := rest }

/-- The section of `threadFunc` behind `wait_for`. -/
def wake (w : LogWorker bufsize) : LogWorker bufsize :=
  (if w.stop then w.pushBuffer else w).takeBuffer

/-- The section behind a write. -/
def relock (w : LogWorker bufsize) (single : Bool) : LogWorker bufsize :=
  let w := { w with buffersAvailable := w.buffersAvailable ++ [FixedBuffer.empty] }
  match single, w.buffersFilled with
  | false, b :: rest => { w with consumer := .writing false b, buffersFilled := rest }
  | _, _ => { w with consumer := .flushing }

def consumerStep (w : LogWorker bufsize) : Option (LogWorker bufsize) :=
  match w.consumer with
  | .waiting => if w.flushing = none then some w.wake else none
  | .writing single b =>
    some { w with output := w.output.append b.records, consumer := .written single }
  | .written single => if w.flushing = none then some (w.relock single) else none
  | .flushing => some { w with consumer := .testing }
  | .testing => some { w with consumer := if w.stop then .exited else .waiting }
  | .exited => none

def step (w : LogWorker bufsize) : LogAct → Option (LogWorker bufsize)
  | .appendAsync text => if w.flushing = none then some (w.appendAsync text) else none
  | .flush => if w.flushing = none then some w.flush else none
  | .flushWrite => if w.flushing = none then none else w.flushWrite
  | .flushReturn =>
    if w.flushing = none ∨ w.buffersFilled ≠ [] then none else some { w with flushing := none }
  | .destroy => if w.flushing = none then some { w with stop := true } else none
  | .consumer => w.consumerStep

def Steps (w : LogWorker bufsize) (a : LogAct) (w' : LogWorker bufsize) : Prop := w.step a = some w'

/-- The worker as its constructor leaves it, with `bufSize` buffers beside `_buffer`. -/
def new (bufsize bufSize kRollSize : Nat) : LogWorker bufsize :=
  { buffersAvailable := List.replicate bufSize .empty, buffer := some .empty,
    output := LogFile.mk [] [] kRollSize }

/-- The buffer that the consumer has taken out and not written. -/
def writing (w : LogWorker bufsize) : List Record :=
  match w.consumer with
  | .writing _ b => b.records
  | _ => []

def filled (w : LogWorker bufsize) : List Record := w.buffersFilled.flatMap FixedBuffer.records

def current (w : LogWorker bufsize) : List Record := (w.buffer.map FixedBuffer.records).getD []

/-- What waits in the queue and in `_buffer`, in order. -/
def behind (w : LogWorker bufsize) : List Record := w.filled ++ w.current

/-- Buffers that nobody fills have been reset. -/
def Clean (w : LogWorker bufsize) : Prop := ∀ b ∈ w.buffersAvailable, b.records = []

variable {w w' : LogWorker bufsize} {a : LogAct}

/-- What one step does with the records. -/
inductive Moves (w : LogWorker bufsize) (a : LogAct) (w' : LogWorker bufsize) : Prop where
  /-- `append_async`, and the steps that touch no record -/
  | stored (new : List Record) (output : w'.output = w.output) (writing : w'.writing = w.writing)
      (behind : w'.behind = w.behind ++ new) (stored : w'.stored = w.stored ++ new)
      (fresh : new = [] ∨ ∃ text, new = [Record.mk w.stored.length text])
  /-- the consumer takes a buffer out -/
  | taken (output : w'.output = w.output) (idle : w.writing = [])
      (behind : w'.writing ++ w'.behind = w.behind) (stored : w'.stored = w.stored)
  /-- the consumer writes it -/
  | wrote (output : w'.output.contents = w.output.contents ++ w.writing) (done : w'.writing = [])
      (behind : w'.behind = w.behind) (stored : w'.stored = w.stored)
  | flushed (b : FixedBuffer bufsize) (act : a = .flushWrite) (front : w.buffersFilled.head? = some b)
      (output : w'.output.contents = w.output.contents ++ b.records)
      (writing : w'.writing = w.writing) (behind : w.behind = b.records ++ w'.behind)
      (stored : w'.stored = w.stored)

theorem Moves.quiet (output : w'.output = w.output) (writing : w'.writing = w.writing)
    (behind : w'.behind = w.behind) (stored : w'.stored = w.stored) : Moves w a w' :=
  .stored [] output writing (behind.trans (List.append_nil _).symm)
    (stored.trans (List.append_nil _).symm) (.inl rfl)

theorem pushBuffer_behind (w : LogWorker bufsize) : w.pushBuffer.behind = w.behind := by
  unfold pushBuffer
  split
  · rename_i b here
    simp [behind, filled, current, here]
  · rfl

theorem pushBuffer_keeps (w : LogWorker bufsize) : w.pushBuffer.output = w.output ∧
    w.pushBuffer.consumer = w.consumer ∧ w.pushBuffer.stored = w.stored ∧
    w.pushBuffer.buffersAvailable = w.buffersAvailable ∧ w.pushBuffer.stop = w.stop ∧
    w.pushBuffer.buffer = none := by
  unfold pushBuffer
  split
  · exact ⟨rfl, rfl, rfl, rfl, rfl, rfl⟩
  · rename_i none
    exact ⟨rfl, rfl, rfl, rfl, rfl, none⟩

theorem writing_congr (same : w'.consumer = w.consumer) : w'.writing = w.writing := by
  rw [writing, same, writing]

/-- The buffer that `store` fills stands behind what is queued. -/
theorem moves_store {b : FixedBuffer bufsize} {text : Bytes} (output : w'.output = w.output)
    (consumer : w'.consumer = w.consumer) (behind : w.behind = w'.filled ++ b.records)
    (stored : w'.stored = w.stored) : Moves w a (w'.store b ⟨w.stored.length, text⟩) := by
  have here : (w'.store b ⟨w.stored.length, text⟩).behind =
      w'.filled ++ (b.append ⟨w.stored.length, text⟩).2.records := rfl
  have log : (w'.store b ⟨w.stored.length, text⟩).stored =
      if (b.append ⟨w.stored.length, text⟩).1 then w'.stored ++ [⟨w.stored.length, text⟩]
      else w'.stored := rfl
  rw [FixedBuffer.append_records] at here
  cases fits : (b.append ⟨w.stored.length, text⟩).1 with
  | true =>
    rw [fits, if_pos rfl] at here log
    refine .stored [⟨w.stored.length, text⟩] output (writing_congr consumer) ?_ ?_ (.inr ⟨text, rfl⟩)
    · rw [here, behind, List.append_assoc]
    · rw [log, stored]
  | false =>
    rw [fits, if_neg Bool.false_ne_true] at here log
    exact .quiet output (writing_congr consumer) (here.trans behind.symm) (log.trans stored)

theorem moves_storeFresh {text : Bytes} (clean : w'.Clean) (output : w'.output = w.output)
    (consumer : w'.consumer = w.consumer) (none : w'.buffer = none) (behind : w'.behind = w.behind)
    (stored : w'.stored = w.stored) :
    Moves w a (w'.storeFresh ⟨w.stored.length, text⟩) ∧
      (w'.storeFresh ⟨w.stored.length, text⟩).Clean := by
  unfold storeFresh
  split
  · rename_i b last
    have reset : b.records = [] := clean b (List.mem_of_getLast? last)
    refine ⟨moves_store output consumer ?_ stored, ?_⟩
    · rw [← behind, reset]
      simp [LogWorker.behind, filled, current, none]
    · exact fun b member => clean b ((List.dropLast_sublist _).subset member)
  · exact ⟨.quiet output (writing_congr consumer) behind stored, clean⟩

theorem moves_appendAsync (clean : w.Clean) (text : Bytes) :
    Moves w a (w.appendAsync text) ∧ (w.appendAsync text).Clean := by
  unfold appendAsync
  dsimp only
  split
  · exact ⟨.quiet rfl rfl rfl rfl, clean⟩
  · split
    · rename_i b here
      split
      · refine ⟨moves_store rfl rfl ?_ rfl, clean⟩
        simp [behind, filled, current, here]
      · refine moves_storeFresh (w := w) clean rfl rfl rfl ?_ rfl
        simp [behind, filled, current, here]
    · rename_i none
      exact moves_storeFresh clean rfl rfl none rfl rfl

theorem takeBuffer_behind (idle : w.consumer = .waiting) :
    w.takeBuffer.writing ++ w.takeBuffer.behind = w.behind := by
  unfold takeBuffer
  split
  · rename_i none
    split
    · rename_i b here
      split
      · simp [writing, idle]
      · simp [writing, behind, filled, current, none, here]
    · simp [writing, idle]
  · rename_i b rest queue
    simp [writing, behind, filled, current, queue]

theorem takeBuffer_keeps (w : LogWorker bufsize) : w.takeBuffer.output = w.output ∧
    w.takeBuffer.stored = w.stored ∧ w.takeBuffer.buffersAvailable = w.buffersAvailable := by
  unfold takeBuffer
  split
  · split
    · split <;> exact ⟨rfl, rfl, rfl⟩
    · exact ⟨rfl, rfl, rfl⟩
  · exact ⟨rfl, rfl, rfl⟩

theorem moves_wake (idle : w.consumer = .waiting) (clean : w.Clean) :
    Moves w a w.wake ∧ w.wake.Clean := by
  have take (v : LogWorker bufsize) (consumer : v.consumer = w.consumer) (output : v.output = w.output)
      (behind : v.behind = w.behind) (stored : v.stored = w.stored)
      (available : v.buffersAvailable = w.buffersAvailable) :
      Moves w a v.takeBuffer ∧ v.takeBuffer.Clean := by
    obtain ⟨o, l, reset⟩ := takeBuffer_keeps v
    refine ⟨.taken (o.trans output) ?_ ?_ (l.trans stored), ?_⟩
    · rw [writing, idle]
    · rw [takeBuffer_behind (consumer.trans idle), behind]
    · rw [Clean, reset, available]
      exact clean
  unfold wake
  split
  · obtain ⟨output, consumer, stored, available, _⟩ := pushBuffer_keeps w
    exact take _ consumer output (pushBuffer_behind w) stored available
  · exact take w rfl rfl rfl rfl rfl

theorem clean_grown (clean : w.Clean) (grown : w'.buffersAvailable = w.buffersAvailable ++ [.empty]) :
    w'.Clean := by
  intro b member
  rw [grown] at member
  rcases List.mem_append.mp member with old | new
  · exact clean b old
  · rw [List.mem_singleton.mp new]
    rfl

theorem moves_relock {single : Bool} (pc : w.consumer = .written single) (clean : w.Clean) :
    Moves w a (w.relock single) ∧ (w.relock single).Clean := by
  have idle : w.writing = [] := by rw [writing, pc]
  unfold relock
  dsimp only
  split
  · rename_i b rest queue
    refine ⟨.taken rfl idle ?_ rfl, clean_grown clean rfl⟩
    simp [writing, behind, filled, current, queue]
  · exact ⟨.quiet rfl idle.symm rfl rfl, clean_grown clean rfl⟩

theorem moves_step (clean : w.Clean) (steps : Steps w a w') : Moves w a w' ∧ w'.Clean := by
  cases a with
  | appendAsync text =>
    simp only [Steps, step] at steps
    split at steps <;> cases steps
    exact moves_appendAsync clean text
  | flush =>
    simp only [Steps, step] at steps
    split at steps <;> cases steps
    obtain ⟨output, consumer, stored, available, _⟩ := pushBuffer_keeps w
    refine ⟨.quiet output (writing_congr consumer) (pushBuffer_behind w) stored, ?_⟩
    intro b member
    exact clean b (available ▸ member)
  | flushWrite =>
    simp only [Steps, step, flushWrite] at steps
    split at steps
    · cases steps
    · split at steps
      · rename_i b rest queue
        cases steps
        refine ⟨.flushed b rfl (by rw [queue]; rfl) (LogFile.contents_append ..) rfl ?_ rfl,
          clean_grown clean rfl⟩
        simp [behind, filled, current, queue]
      · cases steps
  | flushReturn =>
    simp only [Steps, step] at steps
    split at steps <;> cases steps
    exact ⟨.quiet rfl rfl rfl rfl, clean⟩
  | destroy =>
    simp only [Steps, step] at steps
    split at steps <;> cases steps
    exact ⟨.quiet rfl rfl rfl rfl, clean⟩
  | consumer =>
    simp only [Steps, step, consumerStep] at steps
    split at steps
    · rename_i pc
      split at steps <;> cases steps
      exact moves_wake pc clean
    · rename_i single b pc
      cases steps
      refine ⟨.wrote ?_ rfl rfl rfl, clean⟩
      rw [writing, pc]
      exact LogFile.contents_append ..
    · rename_i single pc
      split at steps <;> cases steps
      exact moves_relock pc clean
    · rename_i pc
      cases steps
      exact ⟨.quiet rfl (by simp [writing, pc]) rfl rfl, clean⟩
    · rename_i pc
      cases steps
      refine ⟨.quiet rfl ?_ rfl rfl, clean⟩
      cases w.stop <;> simp [writing, pc]
    · cases steps

theorem new_clean (bufSize kRollSize : Nat) : (new bufsize bufSize kRollSize).Clean := by
  intro b member
  rw [List.eq_of_mem_replicate member]
  rfl

end LogWorker
end Yamq
