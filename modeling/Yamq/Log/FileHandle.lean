import Yamq.Log.RollSize

/-! Whether a wrapper uses its `FILE` when it has none, and whether it closes each once. A second
`fclose` of a `FILE` is a use after free in the model. -/
namespace Yamq.Files

/-- `fflush`, which takes NULL for all files. -/
def FileSystem.fflush (s : FileSystem) (raw : Option Nat) : Except Fault FileSystem :=
  match raw with
  | none => .ok s
  | some _ => do
    let _ ← s.inodeOf raw
    return s

def AppendFileWrapper.flush (w : AppendFileWrapper) (s : FileSystem) : Except Fault FileSystem :=
  s.fflush w.raw

/-- A wrapper and the files it is on. -/
structure Holder where
  wrapper : AppendFileWrapper
  system : FileSystem

inductive FileOp where
  | append (data : Bytes) (opens : Bool) (results : List Nat)
  | flush
  /-- others make, remove and rename files -/
  | moved (names : Bytes → Option Nat)

namespace Holder

/-- The constructor, when its `fopen` succeeds. -/
def new (filepath : Bytes) (s : FileSystem) : Holder where
  wrapper := (AppendFileWrapper.new filepath s true).1
  system := (AppendFileWrapper.new filepath s true).2

def next (h : Holder) : FileOp → Except Fault Holder
  | .append data opens results => do
    let (_, wrapper, system) ← h.wrapper.append h.system data opens results
    return { wrapper, system }
  | .flush => do return { h with system := ← h.wrapper.flush h.system }
  | .moved names => .ok { h with system := { h.system with names } }

/-- The operations, and the destructor behind them. -/
def life (h : Holder) (ops : List FileOp) : Except Fault FileSystem := do
  let h ← ops.foldlM next h
  h.wrapper.destroy h.system

/-- No operation and no destructor uses a NULL or a closed `FILE`, and those from `first` on are closed
at the end. An append whose loop has no end does not come to that. -/
def SafeLife (h : Holder) (first : Nat) (ops : List FileOp) : Prop :=
  match h.life ops with
  | .ok s => ∀ file, first ≤ file → file < s.opened → s.streams file = none
  | .error fault => fault = .endless

/-- An append that finds its file moved and cannot open it again. -/
def FailedReopen (h : Holder) : FileOp → Prop
  | .append data opens _ => h.wrapper.valid = true ∧ data ≠ [] ∧
    h.system.names h.wrapper.filepath ≠ some h.wrapper.stIno ∧ opens = false
  | .flush => False
  | .moved _ => False

def Reopens : Holder → List FileOp → Prop
  | _, [] => True
  | h, op :: ops => ¬ h.FailedReopen op ∧ ∀ h', h.next op = .ok h' → Reopens h' ops

/-- A wrapper holds one open `FILE`, or none and says so; the others since `first` are closed. -/
structure Holds (h : Holder) (first : Nat) : Prop where
  open_ : h.wrapper.valid = true → ∃ file ino, h.wrapper.raw = some file ∧ first ≤ file ∧
    file < h.system.opened ∧ h.system.streams file = some ino
  lost : h.wrapper.valid = false → h.wrapper.raw = none
  others : ∀ file, first ≤ file → file < h.system.opened → h.wrapper.raw ≠ some file →
    h.system.streams file = none

variable {h h' : Holder} {first : Nat}

theorem new_holds (filepath : Bytes) (s : FileSystem) :
    Holds (new filepath s) s.opened ∧ (new filepath s).wrapper.valid = true := by
  obtain ⟨w, s', ino, built, begun, raw, _⟩ := new_open filepath s
  have opened := begun.opened
  have same : new filepath s = ⟨w, s'⟩ := by
    simp only [new, built]
  rw [same]
  refine ⟨⟨fun _ => ?_, fun invalid => ?_, fun file old young other => ?_⟩, begun.open_.valid⟩
  · obtain ⟨file, raw', young, stream⟩ := begun.open_.stream
    cases raw.symm.trans raw'
    exact ⟨_, ino, raw, Nat.le_refl _, young, stream⟩
  · rw [begun.open_.valid] at invalid
    cases invalid
  · rw [raw] at other
    simp only [opened] at young
    exact absurd (by rw [Nat.le_antisymm (Nat.le_of_lt_succ young) old]) other

/-- The loop of an append leaves the `FILE`s alone, and has no fault but to go on for ever. -/
theorem fwriteLoop_streams {raw : Option Nat} {data : Bytes} (results : List Nat) (remain : Nat)
    {ino : Nat} {s : FileSystem} (here : s.inodeOf raw = .ok ino) :
    AppendFileWrapper.fwriteLoop raw data results remain s = .error .endless ∨
      ∃ left s', AppendFileWrapper.fwriteLoop raw data results remain s = .ok (left, s') ∧
        s'.streams = s.streams ∧ s'.opened = s.opened := by
  induction results generalizing remain s with
  | nil => exact .inl rfl
  | cons k results ih =>
    rw [AppendFileWrapper.fwriteLoop_cons here]
    split
    · exact .inr ⟨_, _, rfl, rfl, rfl⟩
    · split
      · exact .inr ⟨_, _, rfl, rfl, rfl⟩
      · exact ih _ (s := s.extended ino (data.take k)) here

/-- The destructor. -/
theorem Holds.destroy (holds : Holds h first) :
    (h.wrapper.valid = true ∧ ∃ s, h.wrapper.destroy h.system = .ok s ∧
      ∀ file, first ≤ file → file < s.opened → s.streams file = none) ∨
    (h.wrapper.valid = false ∧ h.wrapper.destroy h.system = .error .nullPointer) := by
  cases valid : h.wrapper.valid with
  | false =>
    refine .inr ⟨rfl, ?_⟩
    rw [AppendFileWrapper.destroy, holds.lost valid]
    rfl
  | true =>
    obtain ⟨file, ino, raw, old, young, stream⟩ := holds.open_ valid
    have closed : h.wrapper.destroy h.system = .ok (h.system.closed file) := by
      rw [AppendFileWrapper.destroy, raw]
      exact FileSystem.fclose_open stream
    refine .inl ⟨rfl, _, closed, ?_⟩
    intro other after before
    unfold FileSystem.closed
    dsimp only
    split
    · rfl
    · rename_i apart
      exact holds.others other after before (by rw [raw]; exact apart)

/-- An append of a wrapper that has passed the checks, with what they leave. -/
theorem Holds.writes {w : AppendFileWrapper} {s : FileSystem} (holds : Holds ⟨w, s⟩ first)
    (valid : w.valid = true) {data : Bytes} {opens : Bool} (ready : h.wrapper.valid = true)
    (some_ : data ≠ []) (check : h.wrapper.checkIfOpen h.system opens = .ok (0, w, s))
    (results : List Nat) :
    h.next (.append data opens results) = .error .endless ∨
    ∃ h', h.next (.append data opens results) = .ok h' ∧ Holds h' first ∧ h'.wrapper.valid = true := by
  obtain ⟨file, ino, raw, old, young, stream⟩ := holds.open_ valid
  have here : s.inodeOf w.raw = .ok ino := by
    rw [raw, FileSystem.inodeOf_open stream]
  have appends := AppendFileWrapper.append_checked ready some_ check results
  rcases fwriteLoop_streams results data.length here with endless | run
  · rw [endless] at appends
    exact .inl (by rw [Holder.next, appends]; rfl)
  · obtain ⟨left, s', run, streams, opened⟩ := run
    rw [run] at appends
    refine .inr ⟨⟨{ w with writenChars := w.writenChars + toSize (data.length - left) }, s'⟩,
      by rw [Holder.next, appends]; rfl, ⟨fun _ => ?_, fun lost => ?_, ?_⟩, valid⟩
    · exact ⟨file, ino, raw, old, by rw [opened]; exact young, by rw [streams]; exact stream⟩
    · exact absurd (valid.symm.trans lost) Bool.noConfusion
    · intro other after before apart
      rw [opened] at before
      rw [streams]
      exact holds.others other after before apart

/-- A file that was opened again: the new `FILE` is the only one. -/
theorem Holds.reopened {w : AppendFileWrapper} {s : FileSystem}
    (closed : ∀ file, first ≤ file → file < s.opened → s.streams file = none)
    (since : first ≤ s.opened) :
    Holds ⟨(w.open_ s true).2.1, (w.open_ s true).2.2⟩ first ∧ (w.open_ s true).2.1.valid = true := by
  obtain ⟨_, streams, opened⟩ := s.create_keeps w.filepath
  have again : w.open_ s true = (0, { w with
      valid := true, raw := some (s.create w.filepath).1.opened, writenChars := 0
      stIno := (s.create w.filepath).2 }, { (s.create w.filepath).1 with
        streams := Function.update (s.create w.filepath).1.streams (s.create w.filepath).1.opened
          (some (s.create w.filepath).2)
        opened := (s.create w.filepath).1.opened + 1 }) := rfl
  rw [again, streams, opened]
  refine ⟨⟨fun _ => ⟨s.opened, _, rfl, since, Nat.lt_succ_self _, Function.update_self ..⟩,
    fun lost => absurd lost Bool.noConfusion, fun file old young other => ?_⟩, rfl⟩
  have apart : file ≠ s.opened := fun same => other (by rw [same])
  have earlier : file < s.opened := Nat.lt_of_le_of_ne (Nat.le_of_lt_succ young) apart
  simp only [Function.update_of_ne apart]
  exact closed file old earlier

/-- What an append leads to. -/
theorem Holds.append (holds : Holds h first) (data : Bytes) (opens : Bool) (results : List Nat) :
    (h.next (.append data opens results) = .error .endless ∧ h.wrapper.valid = true ∧
      ¬ h.FailedReopen (.append data opens results)) ∨
    ∃ h', h.next (.append data opens results) = .ok h' ∧ Holds h' first ∧ (h'.wrapper.valid = true ↔
      h.wrapper.valid = true ∧ ¬ h.FailedReopen (.append data opens results)) := by
  by_cases nothing : h.wrapper.valid = false ∨ data = []
  · have test : (!h.wrapper.valid || data.length == 0) = true := by
      rw [Bool.or_eq_true_iff, Bool.not_eq_true', beq_iff_eq, List.length_eq_zero_iff]
      exact nothing
    refine .inr ⟨h, by rw [Holder.next, AppendFileWrapper.append, if_pos test]; rfl, holds, ?_⟩
    rcases nothing with lost | none
    · simp [lost]
    · simp [FailedReopen, none]
  · rw [not_or, Bool.not_eq_false] at nothing
    obtain ⟨valid, some_⟩ := nothing
    by_cases there : h.system.names h.wrapper.filepath = some h.wrapper.stIno
    · -- the file is where it was
      have spared : ¬ h.FailedReopen (.append data opens results) := fun failed => failed.2.2.1 there
      rcases holds.writes valid valid some_ (if_pos there) results with
        endless | ⟨h', run, holds', valid'⟩
      · exact .inl ⟨endless, valid, spared⟩
      · exact .inr ⟨h', run, holds', iff_of_true valid' ⟨valid, spared⟩⟩
    · obtain ⟨file, ino, raw, old, young, stream⟩ := holds.open_ valid
      have checks : h.wrapper.checkIfOpen h.system opens =
          .ok (h.wrapper.open_ (h.system.closed file) opens) := by
        rw [AppendFileWrapper.checkIfOpen, if_neg there, raw, FileSystem.fclose_open stream]
        rfl
      have closed : ∀ other, first ≤ other → other < h.system.opened →
          (h.system.closed file).streams other = none := by
        intro other after before
        unfold FileSystem.closed
        dsimp only
        split
        · rfl
        · rename_i apart
          exact holds.others other after before (by rw [raw]; exact apart)
      cases opens with
      | true =>
        obtain ⟨again, valid'⟩ := Holds.reopened (w := h.wrapper)
          (s := h.system.closed file) closed (Nat.le_of_lt (Nat.lt_of_le_of_lt old young))
        have spared : ¬ h.FailedReopen (.append data true results) := fun failed =>
          Bool.noConfusion failed.2.2.2
        rcases again.writes valid' valid some_ checks results with
          endless | ⟨h', run, holds', valid''⟩
        · exact .inl ⟨endless, valid, spared⟩
        · exact .inr ⟨h', run, holds', iff_of_true valid'' ⟨valid, spared⟩⟩
      | false =>
        -- nothing is open any more
        have test : (!h.wrapper.valid || data.length == 0) = false := by
          rw [valid, Bool.not_true, Bool.false_or, beq_eq_false_iff_ne]
          exact fun none => some_ (List.length_eq_zero_iff.mp none)
        refine .inr ⟨⟨{ h.wrapper with valid := false, raw := none }, h.system.closed file⟩, ?_,
          ⟨fun valid => absurd valid Bool.noConfusion, fun _ => rfl,
            fun other after before _ => closed other after before⟩,
          iff_of_false Bool.noConfusion fun both => both.2 ⟨valid, some_, there, rfl⟩⟩
        simp only [Holder.next, AppendFileWrapper.append, test, Bool.false_eq_true, if_false, checks,
          ok_bind]
        rfl

theorem Holds.next (holds : Holds h first) (op : FileOp) :
    (h.next op = .error .endless ∧ h.wrapper.valid = true ∧ ¬ h.FailedReopen op) ∨
    ∃ h', h.next op = .ok h' ∧ Holds h' first ∧
      (h'.wrapper.valid = true ↔ h.wrapper.valid = true ∧ ¬ h.FailedReopen op) := by
  cases op with
  | append data opens results => exact holds.append data opens results
  | moved names =>
    exact .inr ⟨_, rfl, ⟨holds.open_, holds.lost, holds.others⟩, by simp [FailedReopen]⟩
  | flush =>
    refine .inr ⟨h, ?_, holds, by simp [FailedReopen]⟩
    cases valid : h.wrapper.valid with
    | false =>
      simp only [Holder.next, AppendFileWrapper.flush, holds.lost valid, FileSystem.fflush, ok_bind,
        pure_ok]
    | true =>
      obtain ⟨file, ino, raw, _, _, stream⟩ := holds.open_ valid
      simp only [Holder.next, AppendFileWrapper.flush, raw, FileSystem.fflush,
        FileSystem.inodeOf_open stream,
        ok_bind, pure_ok]

theorem Holds.safe_iff (ops : List FileOp) (holds : Holds h first) :
    SafeLife h first ops ↔ h.wrapper.valid = true ∧ Reopens h ops := by
  induction ops generalizing h with
  | nil =>
    have life : h.life [] = h.wrapper.destroy h.system := rfl
    rw [SafeLife, life, Reopens, and_true]
    rcases holds.destroy with ⟨valid, s, closes, closed⟩ | ⟨lost, faults⟩
    · rw [closes]
      exact iff_of_true closed valid
    · rw [faults, lost]
      exact iff_of_false nofun nofun
  | cons op ops ih =>
    have first_step : h.life (op :: ops) = h.next op >>= fun h' => h'.life ops := by
      simp only [life, List.foldlM_cons, bind_assoc]
    rw [SafeLife, first_step, Reopens]
    rcases holds.next op with ⟨endless, valid, spared⟩ | ⟨h', run, holds', valid'⟩
    · rw [endless]
      exact iff_of_true rfl ⟨valid, spared, fun h' run => by cases run⟩
    · have rest := ih holds'
      rw [SafeLife] at rest
      rw [run, ok_bind, rest, valid']
      constructor
      · rintro ⟨⟨valid, spared⟩, later⟩
        exact ⟨valid, spared, fun h'' same => by cases same; exact later⟩
      · rintro ⟨valid, spared, later⟩
        exact ⟨⟨valid, spared⟩, later h' rfl⟩

/-- For every life of a wrapper whose constructor opened its file: its `FILE`s are used and closed as
they should exactly when no append finds its file moved and fails to open it again. -/
theorem safe_life_iff (filepath : Bytes) (s : FileSystem) (ops : List FileOp) :
    SafeLife (new filepath s) s.opened ops ↔ Reopens (new filepath s) ops := by
  obtain ⟨holds, valid⟩ := new_holds filepath s
  rw [holds.safe_iff, and_iff_right valid]

/-- The file is removed, an append cannot make it again, and the destructor closes NULL. -/
theorem closes_null :
    (new (ascii "f") {}).life [.moved fun _ => none, .append (ascii "a") false []] =
      .error .nullPointer ∧
    ¬ SafeLife (new (ascii "f") {}) 0 [.moved fun _ => none, .append (ascii "a") false []] := by
  have faults : (new (ascii "f") {}).life [.moved fun _ => none, .append (ascii "a") false []] =
      .error .nullPointer := rfl
  refine ⟨faults, fun safe => ?_⟩
  rw [SafeLife, faults] at safe
  cases safe

end Holder
end Yamq.Files
