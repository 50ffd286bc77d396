import Yamq.Log.Shutdown

/-! The buffers of `LogWorker`: none is lost, and those in the pool are empty. -/
namespace Yamq.LogWorker

open Transition

variable {bufsize : Nat} {w w' : LogWorker bufsize} {a : LogAct}

/-- The buffer that the consumer holds while it has not got the lock. -/
def inHand (w : LogWorker bufsize) : Nat :=
  match w.consumer with
  | .writing _ _ => 1
  | .written _ => 1
  | _ => 0

/-- The buffers in the current slot, the filled queue, the pool and the consumer's hands. -/
def buffers (w : LogWorker bufsize) : Nat := w.left + w.buffersAvailable.length + w.inHand

theorem inHand_congr (same : w'.consumer = w.consumer) : w'.inHand = w.inHand := by
  rw [inHand, same, inHand]

theorem store_buffers (b : FixedBuffer bufsize) (r : Record) (none : w.buffer = none) :
    (w.store b r).buffers = w.buffers + 1 := by
  simp only [buffers, store, left, inHand, none, Option.toList_some, Option.toList_none,
    List.length_singleton, List.length_nil]
  omega

theorem store_again {b : FixedBuffer bufsize} (r : Record) (here : w.buffer = some b) :
    (w.store b r).buffers = w.buffers := by
  simp only [buffers, store, left, inHand, here, Option.toList_some, List.length_singleton]

theorem storeFresh_buffers (r : Record) (none : w.buffer = none) :
    (w.storeFresh r).buffers = w.buffers := by
  unfold storeFresh
  split
  · rename_i b last
    have some_ : w.buffersAvailable ≠ [] := by
      intro empty
      rw [empty] at last
      cases last
    have := List.length_pos_iff.mpr some_
    rw [store_buffers b r (w := { w with buffersAvailable := w.buffersAvailable.dropLast }) none]
    simp only [buffers, left, inHand, List.length_dropLast]
    omega
  · rfl

theorem pushBuffer_buffers (w : LogWorker bufsize) : w.pushBuffer.buffers = w.buffers := by
  obtain ⟨-, consumer, -, available, -, -⟩ := pushBuffer_keeps w
  rw [buffers, pushBuffer_left, available, inHand_congr consumer, buffers]

theorem appendAsync_buffers (w : LogWorker bufsize) (text : Bytes) :
    (w.appendAsync text).buffers = w.buffers := by
  unfold appendAsync
  dsimp only
  split
  · rfl
  · split
    · rename_i b here
      split
      · exact store_again _ here
      · rw [storeFresh_buffers _ rfl]
        simp only [buffers, left, inHand, here, List.length_append, List.length_singleton,
          Option.toList_some, Option.toList_none, List.length_nil]
    · rename_i none
      exact storeFresh_buffers _ none

theorem takeBuffer_buffers (idle : w.consumer = .waiting) : w.takeBuffer.buffers = w.buffers := by
  unfold takeBuffer
  split
  · rename_i empty
    split
    · rename_i b here
      split
      · rfl
      · simp only [buffers, left, inHand, here, empty, idle, Option.toList_some, Option.toList_none,
          List.length_singleton, List.length_nil]
        omega
    · rfl
  · rename_i b rest queue
    simp only [buffers, left, inHand, queue, idle, List.length_cons]
    omega

theorem wake_buffers (idle : w.consumer = .waiting) : w.wake.buffers = w.buffers := by
  unfold wake
  split
  · obtain ⟨-, consumer, -⟩ := pushBuffer_keeps w
    rw [takeBuffer_buffers (consumer.trans idle), pushBuffer_buffers]
  · exact takeBuffer_buffers idle

theorem relock_buffers {single : Bool} (pc : w.consumer = .written single) :
    (w.relock single).buffers = w.buffers := by
  unfold relock
  dsimp only
  split
  · rename_i b rest queue
    simp only [buffers, left, inHand, queue, pc, List.length_cons, List.length_append, List.length_nil]
    omega
  · simp only [buffers, left, inHand, pc, List.length_append, List.length_singleton]
    omega

theorem consumerStep_buffers (steps : w.consumerStep = some w') : w'.buffers = w.buffers := by
  unfold consumerStep at steps
  split at steps
  · rename_i idle
    split at steps <;> cases steps
    exact wake_buffers idle
  · rename_i single b pc
    cases steps
    simp only [buffers, left, inHand, pc]
  · rename_i single pc
    split at steps <;> cases steps
    exact relock_buffers pc
  · rename_i pc
    cases steps
    simp only [buffers, left, inHand, pc]
  · rename_i pc
    cases steps
    cases w.stop <;> simp [buffers, left, inHand, pc]
  · cases steps

theorem step_buffers (steps : Steps w a w') : w'.buffers = w.buffers := by
  cases a with
  | appendAsync text =>
    simp only [Steps, step] at steps
    split at steps <;> cases steps
    exact appendAsync_buffers w text
  | flush =>
    simp only [Steps, step] at steps
    split at steps <;> cases steps
    exact pushBuffer_buffers w
  | flushWrite =>
    simp only [Steps, step, flushWrite] at steps
    split at steps
    · cases steps
    · split at steps
      · rename_i b rest queue
        cases steps
        simp only [buffers, left, inHand, queue, List.length_cons, List.length_append, List.length_nil]
        omega
      · cases steps
  | flushReturn =>
    simp only [Steps, step] at steps
    split at steps <;> cases steps
    rfl
  | destroy =>
    simp only [Steps, step] at steps
    split at steps <;> cases steps
    rfl
  | consumer => exact consumerStep_buffers steps

theorem new_buffers (bufSize kRollSize : Nat) :
    (new bufsize bufSize kRollSize).buffers = bufSize + 1 := by
  simp only [buffers, new, left, inHand, List.length_replicate, Option.toList_some,
    List.length_singleton, List.length_nil]
  omega

/-- A message that is no longer than an empty buffer. -/
theorem append_fits {b : FixedBuffer bufsize} {r : Record} (clean : b.records = [])
    (small : r.text.length ≤ bufsize) : (b.append r).1 = true := by
  have room : r.text.length ≤ b.remain := by
    rw [FixedBuffer.remain, FixedBuffer.length, clean]
    exact small
  rw [FixedBuffer.append, dif_pos room]

/-- Along every run no buffer is lost, those in the pool are empty, and each of them takes a message
that is no longer than the capacity. -/
theorem pool_conserved (bufSize kRollSize : Nat)
    (run : Reaches Steps Free (new bufsize bufSize kRollSize) w) :
    w.buffers = bufSize + 1 ∧ (∀ b ∈ w.buffersAvailable, b.length = 0) ∧
      ∀ b ∈ w.buffersAvailable, ∀ r : Record, r.text.length ≤ bufsize → (b.append r).1 = true := by
  have count : w.buffers = bufSize + 1 :=
    run.invariant (new_buffers bufSize kRollSize) fun _ _ _ inv _ taken =>
      (step_buffers taken).trans inv
  have clean : w.Clean :=
    run.invariant (new_clean bufSize kRollSize) fun _ _ _ inv _ taken => (moves_step inv taken).2
  refine ⟨count, fun b member => ?_, fun b member r small => append_fits (clean b member) small⟩
  rw [FixedBuffer.length, clean b member]
  rfl

/-- One buffer of 2 bytes beside the current one: the queue fills, and the consumer is stopped while it
holds a buffer. -/
theorem pool_conserved_stopped :
    ∃ w, (new 2 1 0).buffers = 2 ∧ Reaches Steps Free (new 2 1 0) w ∧ w.stop = true ∧ w.inHand = 1 ∧
      w.buffers = 1 + 1 := by
  obtain ⟨w, run, stop, hand⟩ : ∃ w, [LogAct.appendAsync [65], .appendAsync [66], .appendAsync [67],
      .consumer, .destroy, .consumer].foldlM LogWorker.step (new 2 1 0) = some w ∧
      w.stop = true ∧ w.inHand = 1 := ⟨_, rfl, rfl, rfl⟩
  have reaches := Reaches.of_labels LogWorker.step _ run
  exact ⟨w, rfl, reaches, stop, hand, (pool_conserved 1 0 reaches).1⟩

end Yamq.LogWorker
