import Yamq.Log.LogWorker

/-! Whether the destructor's `Join` returns. The test of `_stop` stands at the end of the loop of
`threadFunc`, behind a `continue` that a pass without anything to write takes. -/
namespace Yamq.LogWorker

open Transition

variable {bufsize : Nat} {w w' : LogWorker bufsize} {a : LogAct}

/-- A pass of the consumer that begins with `_stop` set finds a buffer. -/
def Finds (w : LogWorker bufsize) (a : LogAct) : Prop :=
  a = .consumer → w.stop = true → w.consumer = .waiting →
    w.buffersFilled ≠ [] ∨ w.buffer ≠ none

/-- The buffers that the consumer may still have to write. -/
def left (w : LogWorker bufsize) : Nat := w.buffersFilled.length + w.buffer.toList.length

/-- The steps to the `break`, as long as the consumer meets no empty pass. -/
def rank (w : LogWorker bufsize) : Nat :=
  match w.consumer with
  | .waiting => 2 * w.left + 3
  | .writing _ _ => 2 * w.left + 4
  | .written _ => 2 * w.left + 3
  | .flushing => 2
  | .testing => 1
  | .exited => 0

theorem pushBuffer_left (w : LogWorker bufsize) : w.pushBuffer.left = w.left := by
  unfold pushBuffer
  split
  · rename_i b here
    simp [left, here]
  · rfl

theorem rank_of_left (consumer : w'.consumer = w.consumer) (fewer : w'.left ≤ w.left) :
    w'.rank ≤ w.rank := by
  unfold rank
  rw [consumer]
  split <;> omega

theorem appendAsync_stopped (stop : w.stop = true) (text : Bytes) : w.appendAsync text = w := by
  rw [appendAsync, if_pos stop]

theorem wake_found (stop : w.stop = true) (found : w.buffersFilled ≠ [] ∨ w.buffer ≠ none) :
    ∃ b, w.wake.consumer = .writing false b ∧ w.wake.left + 1 = w.left ∧ w.wake.stop = true := by
  obtain ⟨_, _, _, _, kept, none⟩ := pushBuffer_keeps w
  have total := pushBuffer_left w
  rw [left, none] at total
  rw [wake, if_pos stop, takeBuffer]
  split
  · rename_i empty
    rw [empty] at total
    rcases found with more | here
    · exact absurd (List.length_eq_zero_iff.mp (by simp only [left] at total; simp at total; omega)) more
    · cases buffer : w.buffer with
      | none => exact absurd buffer here
      | some b => simp [left, buffer] at total
  · rename_i b rest queue
    rw [queue] at total
    refine ⟨b, rfl, ?_, kept.trans stop⟩
    simp only [left, none] at total ⊢
    simp at total ⊢
    omega

theorem relock_rank (single : Bool) : (w.relock single).rank < 2 * w.left + 3 := by
  unfold relock
  dsimp only
  split
  · rename_i b rest queue
    simp only [rank, left, queue, List.length_cons]
    omega
  · simp only [rank]
    omega

theorem rank_step (stop : w.stop = true) (finds : w.Finds a) (steps : Steps w a w') :
    w'.stop = true ∧ w'.rank + (if a == .consumer then 1 else 0) ≤ w.rank := by
  cases a with
  | appendAsync text =>
    simp only [Steps, step] at steps
    split at steps <;> cases steps
    rw [appendAsync_stopped stop]
    exact ⟨stop, Nat.le_refl _⟩
  | flush =>
    simp only [Steps, step] at steps
    split at steps <;> cases steps
    obtain ⟨_, consumer, _, _, kept, _⟩ := pushBuffer_keeps w
    exact ⟨kept.trans stop, rank_of_left consumer (Nat.le_of_eq (pushBuffer_left w))⟩
  | flushWrite =>
    simp only [Steps, step, flushWrite] at steps
    split at steps
    · cases steps
    · split at steps
      · rename_i b rest queue
        cases steps
        refine ⟨stop, rank_of_left rfl ?_⟩
        simp only [left, queue, List.length_cons]
        omega
      · cases steps
  | flushReturn =>
    simp only [Steps, step] at steps
    split at steps <;> cases steps
    exact ⟨stop, Nat.le_refl _⟩
  | destroy =>
    simp only [Steps, step] at steps
    split at steps <;> cases steps
    exact ⟨rfl, Nat.le_refl _⟩
  | consumer =>
    simp only [Steps, step, consumerStep] at steps
    split at steps
    · rename_i pc
      split at steps <;> cases steps
      obtain ⟨b, taken, fewer, kept⟩ := wake_found stop (finds rfl stop pc)
      refine ⟨kept, ?_⟩
      simp only [rank, taken, pc, beq_self_eq_true, if_true]
      omega
    · rename_i single b pc
      cases steps
      refine ⟨stop, ?_⟩
      simp only [rank, left, pc, beq_self_eq_true, if_true]
      omega
    · rename_i single pc
      split at steps <;> cases steps
      have kept : (w.relock single).stop = w.stop := by
        unfold relock
        dsimp only
        split <;> rfl
      have less := relock_rank (w := w) single
      refine ⟨kept.trans stop, ?_⟩
      rw [if_pos (beq_self_eq_true _)]
      have here : w.rank = 2 * w.left + 3 := by rw [rank, pc]
      omega
    · rename_i pc
      cases steps
      refine ⟨stop, ?_⟩
      simp [rank, pc]
    · rename_i pc
      cases steps
      refine ⟨stop, ?_⟩
      simp [rank, pc, stop]
    · cases steps

/-- The consumer waits with `_stop` set and nothing to write. -/
structure Stuck (w : LogWorker bufsize) : Prop where
  stop : w.stop = true
  waiting : w.consumer = .waiting
  empty : w.buffersFilled = []
  none : w.buffer = none

theorem Stuck.step (h : w.Stuck) (steps : Steps w a w') : w'.Stuck := by
  have pushed : w.pushBuffer = w := by
    unfold pushBuffer
    rw [h.none]
  cases a with
  | appendAsync text =>
    simp only [Steps, LogWorker.step] at steps
    split at steps <;> cases steps
    rw [appendAsync_stopped h.stop]
    exact h
  | flush =>
    simp only [Steps, LogWorker.step] at steps
    split at steps <;> cases steps
    rw [LogWorker.flush, pushed]
    exact ⟨h.stop, h.waiting, h.empty, h.none⟩
  | flushWrite =>
    simp only [Steps, LogWorker.step, flushWrite, h.empty] at steps
    split at steps <;> cases steps
  | flushReturn =>
    simp only [Steps, LogWorker.step] at steps
    split at steps <;> cases steps
    exact ⟨h.stop, h.waiting, h.empty, h.none⟩
  | destroy =>
    simp only [Steps, LogWorker.step] at steps
    split at steps <;> cases steps
    exact ⟨rfl, h.waiting, h.empty, h.none⟩
  | consumer =>
    -- the `continue`
    simp only [Steps, LogWorker.step, consumerStep, h.waiting] at steps
    split at steps <;> cases steps
    have spins : w.wake = w := by
      rw [wake, if_pos h.stop, pushed, takeBuffer, h.empty, h.none]
    rw [spins]
    exact h

theorem stuck_never_exits (h : w.Stuck) (run : Reaches Steps Free w w') : w'.consumer ≠ .exited := by
  have stuck : w'.Stuck := run.invariant h fun _ _ _ h _ taken => h.step taken
  rw [stuck.waiting]
  nofun

/-- Outside of a `flush` the consumer can always go on. -/
theorem consumer_steps (running : w.consumer ≠ .exited) (free : w.flushing = none) :
    ∃ w', Steps w .consumer w' := by
  cases pc : w.consumer with
  | exited => exact absurd pc running
  | waiting | writing | written | flushing | testing =>
    simp [Steps, step, consumerStep, pc, free]

/-- A `flush` that holds the lock writes the queue. -/
theorem flush_writes (held : w.flushing ≠ none) (k : Nat) (enough : k ≤ w.buffersFilled.length) :
    ∃ w', Runs Steps Finds w (List.replicate k .flushWrite) w' ∧ w'.flushing ≠ none ∧
      w'.buffersFilled.length + k = w.buffersFilled.length := by
  induction k with
  | zero => exact ⟨w, .start, held, rfl⟩
  | succ k ih =>
    obtain ⟨w', run, held', count⟩ := ih (Nat.le_of_succ_le enough)
    cases queue : w'.buffersFilled with
    | nil =>
      rw [queue, List.length_nil] at count
      omega
    | cons b rest =>
      rw [queue, List.length_cons] at count
      have writes : Steps w' .flushWrite { w' with
          buffersFilled := rest
          output := w'.output.append b.records
          buffersAvailable := w'.buffersAvailable ++ [FixedBuffer.empty] } := by
        rw [Steps, step, if_neg held', flushWrite, queue]
      have fewer : rest.length + (k + 1) = w.buffersFilled.length := by omega
      rw [List.replicate_succ']
      exact ⟨_, run.step (by rintro ⟨⟩) writes, held', fewer⟩

/-- Then it returns. -/
theorem flush_finishes (held : w.flushing ≠ none) : ∃ w', Runs Steps Finds w
    (List.replicate w.buffersFilled.length .flushWrite ++ [.flushReturn]) w' ∧ w'.flushing = none := by
  obtain ⟨w', run, held', count⟩ := flush_writes held w.buffersFilled.length (Nat.le_refl _)
  have empty : w'.buffersFilled = [] := List.length_eq_zero_iff.mp (by omega)
  have open_ : ¬ (w'.flushing = none ∨ w'.buffersFilled ≠ []) := by
    simp [held', empty]
  exact ⟨{ w' with flushing := none }, run.step (by rintro ⟨⟩) (by rw [Steps, step, if_neg open_]), rfl⟩

/-- From every state with `_stop` set: in every run whose passes each find a buffer, the consumer
takes a bounded number of further steps, none of which a lock holds up for good, since a `flush` that
holds it writes the queue and returns, and then the consumer has reached its `break`; and from a pass that
finds none it never does. -/
theorem shutdown_terminates (bufsize : Nat) (w : LogWorker bufsize) (stop : w.stop = true) :
    (∃ bound, ∀ labels w', Runs Steps Finds w labels w' → labels.count .consumer ≤ bound ∧
      (w'.consumer ≠ .exited → w'.flushing = none → ∃ w'', Steps w' .consumer w'') ∧
      (w'.flushing ≠ none → ∃ w'', Runs Steps Finds w'
        (List.replicate w'.buffersFilled.length .flushWrite ++ [.flushReturn]) w'' ∧
          w''.flushing = none)) ∧
    (¬ w.Finds .consumer → ∀ w', Reaches Steps Free w w' → w'.consumer ≠ .exited) := by
  constructor
  · refine ⟨w.rank, fun labels w' run => ⟨?_, consumer_steps, flush_finishes⟩⟩
    have bounded := run.countP_le (fun w => w.stop = true) (· == .consumer) rank stop
      (fun _ _ _ stop finds taken => (rank_step stop finds taken).1)
      (fun _ _ _ stop finds taken => (rank_step stop finds taken).2)
    rw [List.count]
    omega
  · intro empty w' run
    simp only [Finds, forall_const, not_forall, not_or, not_not] at empty
    obtain ⟨_, waiting, none, gone⟩ := empty
    exact stuck_never_exits ⟨stop, waiting, none, gone⟩ run

/-- The destructor finds a message in `_buffer`. -/
theorem shutdown_terminates_message : ∃ w : LogWorker 4, Reaches Steps Free (new 4 2 0) w ∧
    w.stop = true ∧ ∃ bound, ∀ labels w', Runs Steps Finds w labels w' →
      labels.count .consumer ≤ bound := by
  let w : LogWorker 4 := { (new 4 2 0).appendAsync [1] with stop := true }
  have run : Reaches Steps Free (new 4 2 0) w := .of_labels step [.appendAsync [1], .destroy] rfl
  obtain ⟨bound, bounded⟩ := (shutdown_terminates 4 w rfl).1
  exact ⟨w, run, rfl, bound, fun labels w' later => (bounded labels w' later).1⟩

/-- A `flush` takes `_buffer` away, and the destructor follows. -/
theorem shutdown_hangs : ∃ w : LogWorker 4, Reaches Steps Free (new 4 2 0) w ∧ w.stop = true ∧
    ∀ w', Reaches Steps Free w w' → w'.consumer ≠ .exited := by
  have run := Reaches.of_labels step [.appendAsync [1], .flush, .flushWrite, .flushReturn, .destroy]
    (s := new 4 2 0) rfl
  exact ⟨_, run, rfl, fun w' later => stuck_never_exits ⟨rfl, rfl, rfl, rfl⟩ later⟩

end Yamq.LogWorker
