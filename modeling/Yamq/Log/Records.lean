import Yamq.Log.LogWorker
import Mathlib.Data.List.Nodup

/-! What becomes of the records: each is in one place, and where the consumer and `flush` do not write
past each other they come out in order and `flush` leaves none behind. -/
namespace Yamq.LogWorker

open Transition

variable {bufsize : Nat} {w w' : LogWorker bufsize}

/-- Everything that is not on its way out in front of what waits. -/
def places (w : LogWorker bufsize) : List Record := w.output.contents ++ (w.writing ++ w.behind)

structure Placed (w : LogWorker bufsize) : Prop where
  clean : w.Clean
  same : w.places.Perm w.stored
  numbered : w.stored.map Record.ticket = List.range w.stored.length

theorem numbered_append {stored new : List Record}
    (numbered : stored.map Record.ticket = List.range stored.length)
    (fresh : new = [] ∨ ∃ text, new = [Record.mk stored.length text]) :
    (stored ++ new).map Record.ticket = List.range (stored ++ new).length := by
  rcases fresh with rfl | ⟨text, rfl⟩
  · simpa using numbered
  · simp [numbered, List.range_succ]

theorem Placed.step (h : w.Placed) {a : LogAct} (steps : Steps w a w') : w'.Placed := by
  obtain ⟨moves, clean⟩ := moves_step h.clean steps
  cases moves with
  | stored new output writing behind stored fresh =>
    refine ⟨clean, ?_, ?_⟩
    · rw [places, output, writing, behind, stored, ← List.append_assoc w.writing, ← List.append_assoc]
      exact h.same.append_right new
    · rw [stored]
      exact numbered_append h.numbered fresh
  | taken output idle behind stored =>
    refine ⟨clean, ?_, by rw [stored]; exact h.numbered⟩
    have same := h.same
    rwa [places, idle, List.nil_append, ← behind, ← output, ← stored] at same
  | wrote output done behind stored =>
    refine ⟨clean, ?_, by rw [stored]; exact h.numbered⟩
    rw [places, output, done, behind, stored, List.nil_append, List.append_assoc]
    exact h.same
  | flushed b act front output writing behind stored =>
    refine ⟨clean, ?_, by rw [stored]; exact h.numbered⟩
    -- the records of `b` pass those that the consumer holds
    have passed : w'.places.Perm w.places := by
      rw [places, places, output, writing, behind, List.append_assoc]
      apply List.Perm.append_left
      rw [← List.append_assoc, ← List.append_assoc]
      exact List.perm_append_comm.append_right _
    rw [stored]
    exact passed.trans h.same

theorem new_placed (bufSize kRollSize : Nat) : (new bufsize bufSize kRollSize).Placed :=
  ⟨new_clean bufSize kRollSize, .refl _, rfl⟩

theorem placed_of_reaches {bufSize kRollSize : Nat}
    (run : Reaches Steps Free (new bufsize bufSize kRollSize) w) : w.Placed :=
  run.invariant (new_placed ..) fun _ _ _ h _ taken => h.step taken

theorem Placed.nodup (h : w.Placed) : w.stored.Nodup := by
  apply List.Nodup.of_map Record.ticket
  rw [h.numbered]
  exact List.nodup_range

theorem Placed.once (h : w.Placed) : ∀ r ∈ w.stored, w.output.contents.count r + w.writing.count r +
    w.filled.count r + w.current.count r = 1 := by
  intro r stored
  have once : w.places.count r = 1 := by
    rw [h.same.count_eq]
    exact List.count_eq_one_of_mem h.nodup stored
  simp only [places, behind, List.count_append] at once
  omega

/-! The order of the writes. -/

/-- `flush` writes no record past those in the consumer's hands. -/
def Turns (w : LogWorker bufsize) (a : LogAct) : Prop :=
  a = .flushWrite → ∀ b, w.buffersFilled.head? = some b → b.records = [] ∨ w.writing = []

structure Ordered (w : LogWorker bufsize) : Prop where
  clean : w.Clean
  same : w.places = w.stored

theorem Ordered.step (h : w.Ordered) {a : LogAct} (turns : w.Turns a) (steps : Steps w a w') :
    w'.Ordered := by
  obtain ⟨moves, clean⟩ := moves_step h.clean steps
  refine ⟨clean, ?_⟩
  cases moves with
  | stored new output writing behind stored _ =>
    rw [places, output, writing, behind, stored, ← h.same, places]
    simp only [List.append_assoc]
  | taken output idle behind stored =>
    rw [places, output, behind, stored, ← h.same, places, idle, List.nil_append]
  | wrote output done behind stored =>
    rw [places, output, done, behind, stored, ← h.same, places, List.nil_append, List.append_assoc]
  | flushed b act front output writing behind stored =>
    rw [places, output, writing, stored, ← h.same, places, behind]
    rcases turns act b front with none | idle
    · simp [none]
    · simp [idle]

/-- In every run in which `flush` writes no record while the consumer holds some that it has taken out
and not written, the records come into the file in the order in which they were stored. -/
theorem records_in_order (bufsize bufSize kRollSize : Nat) (w : LogWorker bufsize)
    (run : Reaches Steps Turns (new bufsize bufSize kRollSize) w) :
    w.output.contents.Sublist w.stored := by
  have ordered : w.Ordered := run.invariant ⟨new_clean bufSize kRollSize, rfl⟩
    fun _ _ _ h turns taken => h.step turns taken
  rw [← ordered.same]
  exact List.sublist_append_left ..

/-- `flush` finds no buffer to write, or the consumer has written its own. -/
def waitsTurn (w : LogWorker bufsize) (a : LogAct) : Bool :=
  decide (a ≠ .flushWrite) || w.writing.isEmpty

theorem waitsTurn_turns (w : LogWorker bufsize) (a : LogAct) (check : w.waitsTurn a = true) :
    w.Turns a := by
  rintro rfl b _
  right
  simpa [waitsTurn] using check

/-- The consumer writes its buffer between two writes of a `flush`. -/
theorem records_in_order_flush : ∃ w : LogWorker 4, Reaches Steps Turns (new 4 2 0) w ∧
    w.output.contents.length = 2 ∧ w.output.contents.Sublist w.stored := by
  have run := Reaches.of_checked step waitsTurn waitsTurn_turns (s := new 4 2 0)
    [.appendAsync [1], .consumer, .appendAsync [2], .flush, .consumer, .flushWrite, .flushReturn] rfl
  exact ⟨_, run, rfl, records_in_order _ _ _ _ run⟩

/-- `flush` writes a later record while the consumer holds an earlier one. -/
theorem records_out_of_order : ∃ w : LogWorker 4, Reaches Steps Free (new 4 2 0) w ∧
    ¬ w.output.contents.Sublist w.stored := by
  refine ⟨_, Reaches.of_labels step [.appendAsync [1], .consumer, .appendAsync [2], .flush,
    .flushWrite, .flushReturn, .consumer] rfl, ?_⟩
  decide

theorem Placed.increasing (h : w.Placed) : w.stored.Pairwise fun r s => r.ticket < s.ticket := by
  have sorted : (w.stored.map Record.ticket).Pairwise (· < ·) := by
    rw [h.numbered]
    exact List.pairwise_lt_range
  exact List.pairwise_map.mp sorted

/-- The condition is exact: when a write passes the consumer's records, these come after it. -/
theorem out_of_order_of_passing (placed : w.Placed) (ordered : w.Ordered)
    (steps : Steps w .flushWrite w') (passing : ¬ w.Turns .flushWrite) :
    ∃ w'', Steps w' .consumer w'' ∧ ¬ w''.output.contents.Sublist w''.stored := by
  simp only [Turns, forall_const, not_forall, not_or] at passing
  obtain ⟨b, front, some_, holds⟩ := passing
  obtain ⟨y, later⟩ := List.exists_mem_of_ne_nil _ some_
  cases pc : w.consumer with
  | writing single c =>
    have held : w.writing = c.records := by rw [writing, pc]
    obtain ⟨x, earlier⟩ := List.exists_mem_of_ne_nil _ (held ▸ holds)
    simp only [Steps, LogWorker.step, flushWrite] at steps
    split at steps
    · cases steps
    · split at steps
      · rename_i b' rest queue
        cases steps
        rw [queue] at front
        cases front
        refine ⟨_, by simp only [Steps, LogWorker.step, consumerStep, pc]; rfl, ?_⟩
        intro sublist
        have increasing := placed.increasing
        have behind : w.behind = b.records ++ (rest.flatMap FixedBuffer.records ++ w.current) := by
          simp [LogWorker.behind, filled, queue]
        have stored : w.stored = w.output.contents ++ (c.records ++ (b.records ++
            (rest.flatMap FixedBuffer.records ++ w.current))) := by
          rw [← ordered.same, places, held, behind]
        have first : x.ticket < y.ticket := by
          rw [stored] at increasing
          have tail := (List.pairwise_append.mp increasing).2.1
          exact (List.pairwise_append.mp tail).2.2 x earlier y (List.mem_append_left _ later)
        have second : y.ticket < x.ticket := by
          have out := increasing.sublist sublist
          simp only [LogFile.contents_append] at out
          exact (List.pairwise_append.mp out).2.2 y (List.mem_append_right _ later) x earlier
        exact Nat.lt_asymm first second
      · cases steps
  | waiting | written | flushing | testing | exited =>
    exact absurd (by rw [writing, pc]) holds

/-! What a `flush` leaves behind. -/

theorem storeFresh_flushing (w : LogWorker bufsize) (r : Record) :
    (w.storeFresh r).flushing = w.flushing := by
  unfold storeFresh
  split <;> rfl

theorem appendAsync_flushing (w : LogWorker bufsize) (text : Bytes) :
    (w.appendAsync text).flushing = w.flushing := by
  unfold appendAsync
  dsimp only
  split
  · rfl
  · split
    · split
      · rfl
      · exact storeFresh_flushing ..
    · exact storeFresh_flushing ..

theorem wake_flushing (w : LogWorker bufsize) : w.wake.flushing = w.flushing := by
  have pushed : w.pushBuffer.flushing = w.flushing := by
    unfold pushBuffer
    split <;> rfl
  have taken (v : LogWorker bufsize) : v.takeBuffer.flushing = v.flushing := by
    unfold takeBuffer
    split
    · split
      · split <;> rfl
      · rfl
    · rfl
  unfold wake
  split
  · rw [taken, pushed]
  · exact taken w

theorem relock_flushing (w : LogWorker bufsize) (single : Bool) :
    (w.relock single).flushing = w.flushing := by
  unfold relock
  dsimp only
  split <;> rfl

/-- What the lock keeps in place while a `flush` runs. -/
structure Flushing (w : LogWorker bufsize) : Prop where
  alone : w.flushing ≠ none → w.buffer = none
  same : ∀ snapshot, w.flushing = some snapshot → w.stored = snapshot

theorem Flushing.free (none : w.flushing = none) : w.Flushing :=
  ⟨fun held => absurd none held, fun _ held => by cases none.symm.trans held⟩

theorem Flushing.step (h : w.Flushing) {a : LogAct} (steps : Steps w a w') : w'.Flushing := by
  cases a with
  | appendAsync text =>
    simp only [Steps, LogWorker.step] at steps
    split at steps <;> cases steps
    rename_i free
    exact .free ((appendAsync_flushing ..).trans free)
  | flush =>
    simp only [Steps, LogWorker.step] at steps
    split at steps <;> cases steps
    obtain ⟨_, _, stored, _, _, gone⟩ := pushBuffer_keeps w
    refine ⟨fun _ => gone, fun snapshot held => ?_⟩
    cases held
    exact stored
  | flushWrite =>
    simp only [Steps, LogWorker.step, flushWrite] at steps
    split at steps
    · cases steps
    · split at steps <;> cases steps
      exact ⟨h.alone, h.same⟩
  | flushReturn =>
    simp only [Steps, LogWorker.step] at steps
    split at steps <;> cases steps
    exact .free rfl
  | destroy =>
    simp only [Steps, LogWorker.step] at steps
    split at steps <;> cases steps
    exact ⟨h.alone, h.same⟩
  | consumer =>
    simp only [Steps, LogWorker.step, consumerStep] at steps
    split at steps
    · split at steps <;> cases steps
      rename_i free
      exact .free ((wake_flushing w).trans free)
    · cases steps; exact ⟨h.alone, h.same⟩
    · split at steps <;> cases steps
      rename_i free
      exact .free ((relock_flushing ..).trans free)
    · cases steps; exact ⟨h.alone, h.same⟩
    · cases steps; exact ⟨h.alone, h.same⟩
    · cases steps

/-- In every run, when `flush` returns: all that `append_async` had stored when it took the lock is in
the file if and only if the consumer holds no record that it has taken out and not written. -/
theorem flush_complete_iff (bufsize bufSize kRollSize : Nat) (w w' : LogWorker bufsize)
    (snapshot : List Record) (run : Reaches Steps Free (new bufsize bufSize kRollSize) w)
    (flushed : w.flushing = some snapshot) (returns : Steps w .flushReturn w') :
    (∀ r ∈ snapshot, r ∈ w'.output.contents) ↔ w.writing = [] := by
  have placed := placed_of_reaches run
  have held : w.Flushing := run.invariant (.free rfl) fun _ _ _ h _ taken => h.step taken
  simp only [Steps, LogWorker.step] at returns
  split at returns
  · cases returns
  · rename_i empty
    cases returns
    have empty : w.buffersFilled = [] := by
      by_contra more
      exact empty (.inr more)
    have nothing : w.behind = [] := by
      rw [behind, filled, current, empty, held.alone (by simp [flushed])]
      rfl
    have same : (w.output.contents ++ w.writing).Perm snapshot := by
      have same := placed.same
      rwa [places, nothing, List.append_nil, held.same snapshot flushed] at same
    constructor
    · intro written
      by_contra some_
      obtain ⟨r, holds⟩ := List.exists_mem_of_ne_nil _ some_
      have once : (w.output.contents ++ w.writing).Nodup :=
        same.nodup_iff.mpr (held.same snapshot flushed ▸ placed.nodup)
      have out := written r (same.subset (List.mem_append_right _ holds))
      exact (List.nodup_append.mp once).2.2 r out r holds rfl
    · intro none r stored
      have out := same.symm.subset stored
      rwa [none, List.append_nil] at out

/-- A `flush` with the consumer in `wait_for`. -/
theorem flush_complete_waiting : ∃ w' : LogWorker 4, Reaches Steps Free (new 4 2 0) w' ∧
    ∀ r ∈ [Record.mk 0 [1]], r ∈ w'.output.contents := by
  let w : LogWorker 4 :=
    ([.appendAsync [1], .flush, .flushWrite].foldlM step (new 4 2 0)).getD (new 4 2 0)
  have run : Reaches Steps Free (new 4 2 0) w :=
    .of_labels step [.appendAsync [1], .flush, .flushWrite] rfl
  have returns : Steps w .flushReturn { w with flushing := none } := rfl
  exact ⟨_, run.step trivial returns, (flush_complete_iff 4 2 0 w _ _ run rfl returns).mpr rfl⟩

/-- The consumer has taken the record out of `_buffer` when `flush` takes the lock, and writes it after
`flush` has returned. -/
theorem flush_incomplete : ∃ (w w' : LogWorker 4) (snapshot : List Record),
    Reaches Steps Free (new 4 2 0) w ∧ w.flushing = some snapshot ∧ Steps w .flushReturn w' ∧
      ¬ ∀ r ∈ snapshot, r ∈ w'.output.contents := by
  refine ⟨_, _, _, Reaches.of_labels step [.appendAsync [1], .consumer, .flush] rfl, rfl, rfl, ?_⟩
  decide

end Yamq.LogWorker
