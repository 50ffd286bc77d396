import Mathlib.Logic.Function.Basic
import Yamq.Machine
import Yamq.Lib.Transition

/-! `log/logfile.h` and `log/logfile.cpp`. The outcomes of `fopen` and `fwrite` are arguments. -/
namespace Yamq.Files

/-- The inodes that the names stand for, the bytes of the inodes, and the open `FILE`s. What a `FILE`
still buffers counts as written; `Disk` takes it off. -/
structure FileSystem where
  names : Bytes → Option Nat := fun _ => none
  bytes : Nat → Bytes := fun _ => []
  /-- the inodes from here on are unused -/
  inodes : Nat := 0
  streams : Nat → Option Nat := fun _ => none
  /-- the same for the `FILE`s -/
  opened : Nat := 0

namespace FileSystem

/-- The inode that a name stands for, which is a new one when there is none. -/
def create (s : FileSystem) (path : Bytes) : FileSystem × Nat :=
  match s.names path with
  | some ino => (s, ino)
  | none => ({ s with
      names := Function.update s.names path (some s.inodes), inodes := s.inodes + 1 }, s.inodes)

/-- A successful `fopen` in the mode `ae`: the `FILE` and its inode. -/
def fopen (s : FileSystem) (path : Bytes) : FileSystem × Nat × Nat :=
  let (s, ino) := s.create path
  ({ s with streams := Function.update s.streams s.opened (some ino), opened := s.opened + 1 },
    s.opened, ino)

def inodeOf (s : FileSystem) : Option Nat → Except Fault Nat
  | none => .error .nullPointer
  | some file =>
    match s.streams file with
    | some ino => .ok ino
    | none => .error .useAfterFree

def fclose (s : FileSystem) (raw : Option Nat) : Except Fault FileSystem := do
  let _ ← s.inodeOf raw
  return { s with streams := fun file => if raw = some file then none else s.streams file }

def fwrite (s : FileSystem) (raw : Option Nat) (data : Bytes) : Except Fault FileSystem := do
  let ino ← s.inodeOf raw
  return { s with bytes := Function.update s.bytes ino (s.bytes ino ++ data) }

end FileSystem

structure AppendFileWrapper where
  filepath : Bytes
  valid : Bool := false
  raw : Option Nat := none
  stIno : Nat := 0
  writenChars : Nat := 0
deriving DecidableEq, Repr

namespace AppendFileWrapper

def open_ (w : AppendFileWrapper) (s : FileSystem) (opens : Bool) :
    Int × AppendFileWrapper × FileSystem :=
  if opens then
    let (s, file, ino) := s.fopen w.filepath
    (0, { w with valid := true, raw := some file, writenChars := 0, stIno := ino }, s)
  else (-1, { w with valid := false, raw := none }, s)

def new (filepath : Bytes) (s : FileSystem) (opens : Bool) : AppendFileWrapper × FileSystem :=
  (open_ { filepath } s opens).2

def destroy (w : AppendFileWrapper) (s : FileSystem) : Except Fault FileSystem := s.fclose w.raw

def checkIfOpen (w : AppendFileWrapper) (s : FileSystem) (opens : Bool) :
    Except Fault (Int × AppendFileWrapper × FileSystem) :=
  if s.names w.filepath = some w.stIno then .ok (0, w, s)
  else do return w.open_ (← s.fclose w.raw) opens

/-- The loop of `append`, with what each `fwrite` returns. Each is handed the whole block. -/
def fwriteLoop (raw : Option Nat) (data : Bytes) :
    List Nat → Nat → FileSystem → Except Fault (Nat × FileSystem)
  | [], _, _ => .error .endless
  | x :: results, remain, s => do
    let s ← s.fwrite raw (data.take x)
    if x = 0 then return (remain, s)
    else if toSize (remain - x) = 0 then return (0, s)
    else fwriteLoop raw data results (toSize (remain - x)) s

def append (w : AppendFileWrapper) (s : FileSystem) (data : Bytes) (opens : Bool) (results : List Nat) :
    Except Fault (Nat × AppendFileWrapper × FileSystem) :=
  if !w.valid || data.length == 0 then .ok (0, w, s)
  else do
    let (err, w, s) ← w.checkIfOpen s opens
    if err ≠ 0 then return (0, w, s)
    else
      let (remain, s) ← fwriteLoop w.raw data results data.length s
      let writen := toSize (data.length - remain)
      return (writen, { w with writenChars := w.writenChars + writen }, s)

end AppendFileWrapper

structure LogFile where
  file : Option AppendFileWrapper := none
  dirname : Bytes
  filename : Bytes
  extension : Bytes
  filepath : Bytes := []
  rollIndex : UInt32 := 0
  kRollSize : Nat
deriving DecidableEq, Repr

namespace LogFile

/-- The destruction of the wrapper that `_file` holds, if it holds one. -/
def drop (f : LogFile) (s : FileSystem) : Except Fault FileSystem :=
  match f.file with
  | some w => w.destroy s
  | none => .ok s

/-- `_filepath`, which the first `roll` composes. -/
def basePath (f : LogFile) : Bytes :=
  if f.filepath = [] then f.dirname ++ ascii "/" ++ f.filename ++ ascii "." ++ f.extension
  else f.filepath

/-- The name of the next file. -/
def rollPath (f : LogFile) : Bytes :=
  if 0 < f.rollIndex then f.basePath ++ ascii "_" ++ ascii (toString f.rollIndex.toNat)
  else f.basePath

def roll (f : LogFile) (s : FileSystem) (opens : Bool) :
    Except Fault (Bool × LogFile × FileSystem) := do
  let (w, s) := AppendFileWrapper.new f.rollPath s opens
  let f := { f with filepath := f.basePath }
  if w.valid then
    let s ← f.drop s
    return (true, { f with file := some w, rollIndex := f.rollIndex + 1 }, s)
  else return (false, f, s)

/-- The constructor. -/
def new (dirname filename : Bytes) (rollSize : Nat) (extension : Bytes) (s : FileSystem) (opens : Bool) :
    Except Fault (LogFile × FileSystem) := do
  let (_, f, s) ← roll { dirname, filename, extension, kRollSize := rollSize } s opens
  return (f, s)

/-- `append`, with what `fopen` and `fwrite` do in the wrapper, and `fopen` in a `roll`. -/
def append (f : LogFile) (s : FileSystem) (data : Bytes) (opens : Bool) (results : List Nat)
    (rolls : Bool) : Except Fault (Nat × LogFile × FileSystem) :=
  match f.file with
  | none => .error .nullPointer
  | some w => do
    let (writen, w, s) ← w.append s data opens results
    let f := { f with file := some w }
    if 0 < f.kRollSize ∧ f.kRollSize ≤ w.writenChars then
      let (_, f, s) ← f.roll s rolls
      return (writen, f, s)
    else return (writen, f, s)

end LogFile

/-! What a close and a write do to the files. -/

theorem FileSystem.inodeOf_open {s : FileSystem} {file ino : Nat} (here : s.streams file = some ino) :
    s.inodeOf (some file) = .ok ino := by
  simp only [inodeOf, here]

def FileSystem.closed (s : FileSystem) (file : Nat) : FileSystem :=
  { s with streams := fun x => if some file = some x then none else s.streams x }

/-- An open `FILE` is closed, and nothing else changes. -/
theorem FileSystem.fclose_open {s : FileSystem} {file ino : Nat} (here : s.streams file = some ino) :
    s.fclose (some file) = .ok (s.closed file) := by
  rw [fclose, inodeOf_open here]
  rfl

/-- The file with more bytes at its end. -/
def FileSystem.extended (s : FileSystem) (ino : Nat) (more : Bytes) : FileSystem :=
  { s with bytes := Function.update s.bytes ino (s.bytes ino ++ more) }

@[simp] theorem FileSystem.extended_bytes (s : FileSystem) (ino : Nat) (more : Bytes) :
    (s.extended ino more).bytes ino = s.bytes ino ++ more := Function.update_self ..

theorem FileSystem.extended_others (s : FileSystem) {ino other : Nat} (apart : other ≠ ino)
    (more : Bytes) :
    (s.extended ino more).bytes other = s.bytes other := Function.update_of_ne apart ..

/-- One turn of the loop. -/
theorem AppendFileWrapper.fwriteLoop_cons {s : FileSystem} {raw : Option Nat} {ino : Nat} {data : Bytes}
    (here : s.inodeOf raw = .ok ino) (k : Nat) (results : List Nat) (remain : Nat) :
    fwriteLoop raw data (k :: results) remain s =
      if k = 0 then .ok (remain, s.extended ino (data.take k))
      else if toSize (remain - k) = 0 then .ok (0, s.extended ino (data.take k))
      else fwriteLoop raw data results (toSize (remain - k))
        (s.extended ino (data.take k)) := by
  simp only [fwriteLoop, FileSystem.fwrite, here, ok_bind, pure_ok]
  rfl

/-- An append behind the checks is the loop. -/
theorem AppendFileWrapper.append_checked {w w' : AppendFileWrapper} {s s' : FileSystem} {data : Bytes}
    {opens : Bool} (valid : w.valid = true) (some_ : data ≠ [])
    (check : w.checkIfOpen s opens = .ok (0, w', s')) (results : List Nat) :
    w.append s data opens results = (fwriteLoop w'.raw data results data.length s').map fun r =>
      (toSize (data.length - r.1),
        { w' with writenChars := w'.writenChars + toSize (data.length - r.1) }, r.2) := by
  have nonempty : (!w.valid || data.length == 0) = false := by
    rw [valid, Bool.not_true, Bool.false_or, beq_eq_false_iff_ne]
    exact fun none => some_ (List.length_eq_zero_iff.mp none)
  simp only [append, nonempty, Bool.false_eq_true, if_false, check, ok_bind, ne_eq, not_true_eq_false]
  cases fwriteLoop w'.raw data results data.length s' with
  | error f => rfl
  | ok r => rfl

end Yamq.Files
