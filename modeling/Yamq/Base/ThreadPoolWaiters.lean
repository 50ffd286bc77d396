import Yamq.Base.ThreadPool
import Yamq.Lib.Census

/-! Why no notification of the thread pool is lost. `notify_one` wakes one thread, and others may take
the task or the slot before it; but as long as a thread waits, those that have woken and not yet looked
are enough for the tasks, and for the free slots. -/
namespace Yamq.ThreadPool

open Transition Census

variable {F : Type} {n m : Nat}

def waitingWorkers (p : ThreadPool F n m) : Nat := count WorkerPc.isWaiting p.workers
def wokenWorkers (p : ThreadPool F n m) : Nat := count WorkerPc.isWoken p.workers
def waitingProducers (p : ThreadPool F n m) : Nat := count ProducerPc.isWaiting p.producers
def wokenProducers (p : ThreadPool F n m) : Nat := count ProducerPc.isWoken p.producers

structure Counted (p : ThreadPool F n m) : Prop where
  workers : 0 < p.waitingWorkers → p.tasks.length ≤ p.wokenWorkers
  producers : 0 < p.maxTaskSize → 0 < p.waitingProducers →
    p.maxTaskSize ≤ p.tasks.length + p.wokenProducers

variable {p p' : ThreadPool F n m}

theorem setWorker_counts (p : ThreadPool F n m) (i : Fin n) (pc : WorkerPc F) :
    ((p.setWorker i pc).waitingWorkers + (if (p.workers i).isWaiting then 1 else 0) =
      p.waitingWorkers + if pc.isWaiting then 1 else 0) ∧
    ((p.setWorker i pc).wokenWorkers + (if (p.workers i).isWoken then 1 else 0) =
      p.wokenWorkers + if pc.isWoken then 1 else 0) :=
  ⟨count_update .., count_update ..⟩

theorem setProducer_counts (p : ThreadPool F n m) (i : Fin m) (pc : ProducerPc F) :
    ((p.setProducer i pc).waitingProducers + (if (p.producers i).isWaiting then 1 else 0) =
      p.waitingProducers + if pc.isWaiting then 1 else 0) ∧
    ((p.setProducer i pc).wokenProducers + (if (p.producers i).isWoken then 1 else 0) =
      p.wokenProducers + if pc.isWoken then 1 else 0) :=
  ⟨count_update .., count_update ..⟩

/-- Where a worker still waits, `notify_one` has woken another. -/
theorem notifyReady_counts {wakes : Option (Fin n)} (taken : p.notifyReady wakes = some p') :
    p'.tasks = p.tasks ∧ p'.maxTaskSize = p.maxTaskSize ∧ p'.producers = p.producers ∧
      p'.waitingWorkers ≤ p.waitingWorkers ∧
      (0 < p'.waitingWorkers → p'.wokenWorkers = p.wokenWorkers + 1) := by
  unfold notifyReady at taken
  split at taken
  · rename_i j
    split at taken <;> cases taken
    rename_i waiting
    obtain ⟨fewer, more⟩ := setWorker_counts p j .woken
    simp only [WorkerPc.isWaiting_iff.mp waiting, WorkerPc.isWaiting, WorkerPc.isWoken,
      Bool.false_eq_true, if_true, if_false] at fewer more
    exact ⟨rfl, rfl, rfl, by omega, fun _ => by omega⟩
  · split at taken <;> cases taken
    rename_i nobody
    have none : p.waitingWorkers = 0 := (count_zero ..).mpr nobody
    exact ⟨rfl, rfl, rfl, Nat.le_refl _, fun some_ => by omega⟩

theorem notifyFull_counts {wakes : Option (Fin m)} (taken : p.notifyFull wakes = some p') :
    p'.tasks = p.tasks ∧ p'.maxTaskSize = p.maxTaskSize ∧ p'.workers = p.workers ∧
      p'.waitingProducers ≤ p.waitingProducers ∧
      (0 < p'.waitingProducers → p'.wokenProducers = p.wokenProducers + 1) := by
  unfold notifyFull at taken
  split at taken
  · rename_i j
    split at taken <;> cases taken
    rename_i task waiting
    obtain ⟨fewer, more⟩ := setProducer_counts p j (.woken task)
    simp only [waiting, ProducerPc.isWaiting, ProducerPc.isWoken, Bool.false_eq_true, if_true,
      if_false] at fewer more
    exact ⟨rfl, rfl, rfl, by omega, fun _ => by omega⟩
  · split at taken <;> cases taken
    rename_i nobody
    have none : p.waitingProducers = 0 := (count_zero ..).mpr nobody
    exact ⟨rfl, rfl, rfl, Nat.le_refl _, fun some_ => by omega⟩

/-- A producer that does not wait goes on, and pushes unless the pool is being destroyed. -/
theorem Counted.push (h : p.Counted) {i : Fin m} {task : F} {wakes : Option (Fin n)}
    (awake : (p.producers i).isWaiting = false) (taken : p.push i task wakes = some p')
    (running : p'.stop = false) : p'.Counted := by
  unfold ThreadPool.push at taken
  split at taken
  · rename_i stop
    cases taken
    cases running.symm.trans stop
  · obtain ⟨tasks, bound, producers, fewer, more⟩ := notifyReady_counts taken
    obtain ⟨waits, leaves⟩ := setProducer_counts p i .idle
    have longer : p'.tasks.length = p.tasks.length + 1 := by
      rw [tasks]
      exact List.length_append
    have waiting : p'.waitingProducers = (p.setProducer i .idle).waitingProducers := by
      rw [waitingProducers, producers]
      rfl
    have woken : p'.wokenProducers = (p.setProducer i .idle).wokenProducers := by
      rw [wokenProducers, producers]
      rfl
    have fewer : p'.waitingWorkers ≤ p.waitingWorkers := fewer
    have more : 0 < p'.waitingWorkers → p'.wokenWorkers = p.wokenWorkers + 1 := more
    have bound : p'.maxTaskSize = p.maxTaskSize := bound
    have neither : (ProducerPc.idle : ProducerPc F).isWaiting = false ∧
        (ProducerPc.idle : ProducerPc F).isWoken = false := ⟨rfl, rfl⟩
    simp only [awake, neither, Bool.false_eq_true, if_false] at waits leaves
    constructor
    · intro some_
      have enough := h.workers (by omega)
      rw [more some_, longer]
      omega
    · intro bounded some_
      have enough := h.producers (bound ▸ bounded) (by omega)
      rw [bound, longer, woken]
      split at leaves <;> omega

theorem Counted.wait (h : p.Counted) {i : Fin m} {task : F}
    (full : 0 < p.maxTaskSize → p.maxTaskSize ≤ p.tasks.length) :
    (p.setProducer i (.waiting task)).Counted :=
  ⟨h.workers, fun bounded _ => Nat.le_add_right_of_le (full bounded)⟩

theorem Counted.workerLock (h : p.Counted) {i : Fin n} {wakes : Option (Fin m)}
    (awake : (p.workers i).isWaiting = false) (taken : p.workerLock i wakes = some p')
    (running : p'.stop = false) : p'.Counted := by
  unfold ThreadPool.workerLock at taken
  split at taken
  · rename_i empty
    split at taken <;> cases taken
    · rename_i stop
      cases running.symm.trans stop
    · refine ⟨fun _ => ?_, h.producers⟩
      have none : (p.setWorker i .waiting).tasks = [] := empty
      rw [none]
      exact Nat.zero_le _
  · rename_i task rest queue
    obtain ⟨waits, leaves⟩ := setWorker_counts p i (.running task)
    have shorter : p.tasks.length = rest.length + 1 := by rw [queue, List.length_cons]
    have neither : (WorkerPc.running task).isWaiting = false ∧ (WorkerPc.running task).isWoken = false :=
      ⟨rfl, rfl⟩
    simp only [awake, neither, Bool.false_eq_true, if_false] at waits leaves
    -- the worker that takes the task may be one of those that have woken
    have workers : 0 < (p.setWorker i (.running task)).waitingWorkers →
        rest.length ≤ (p.setWorker i (.running task)).wokenWorkers := by
      intro some_
      have enough := h.workers (by omega)
      split at leaves <;> omega
    dsimp only at taken
    split at taken
    · obtain ⟨tasks, bound, same, fewer, more⟩ := notifyFull_counts taken
      have fewer : p'.waitingProducers ≤ p.waitingProducers := fewer
      have more : 0 < p'.waitingProducers → p'.wokenProducers = p.wokenProducers + 1 := more
      have bound : p'.maxTaskSize = p.maxTaskSize := bound
      have tasks : p'.tasks = rest := tasks
      constructor
      · rw [waitingWorkers, wokenWorkers, same, tasks]
        exact workers
      · intro bounded some_
        have enough := h.producers (bound ▸ bounded) (by omega)
        rw [bound, tasks, more some_]
        omega
    · rename_i unbounded
      cases taken
      exact ⟨workers, fun bounded => absurd bounded unbounded⟩

/-- A worker that does not wait any more, and stays woken if it was. -/
theorem Counted.setWorker (h : p.Counted) {i : Fin n} {pc : WorkerPc F} (idle : pc.isWaiting = false)
    (kept : (p.workers i).isWoken = true → pc.isWoken = true) : (p.setWorker i pc).Counted := by
  obtain ⟨waits, leaves⟩ := setWorker_counts p i pc
  have fewer : (p.setWorker i pc).waitingWorkers ≤ p.waitingWorkers := by
    rw [idle] at waits
    exact Nat.le.intro waits
  have more : p.wokenWorkers ≤ (p.setWorker i pc).wokenWorkers := by
    cases woken : (p.workers i).isWoken with
    | true =>
      rw [woken, kept woken] at leaves
      omega
    | false =>
      rw [woken] at leaves
      exact Nat.le.intro leaves.symm
  refine ⟨fun some_ => ?_, h.producers⟩
  have some_ : 0 < (p.setWorker i pc).waitingWorkers := some_
  exact (h.workers (by omega)).trans more

theorem Counted.step (h : p.Counted) {a : PoolAct F n m} (taken : Steps p a p')
    (running : p'.stop = false) : p'.Counted := by
  unfold Steps ThreadPool.step at taken
  split at taken
  · split at taken
    · rename_i idle
      unfold ThreadPool.addTask at taken
      split at taken
      · rename_i full
        cases taken
        exact h.wait fun _ => full.2.1
      · exact h.push (by rw [idle]; rfl) taken running
    · cases taken
  · split at taken
    · rename_i woken
      unfold ThreadPool.retest at taken
      split at taken
      · exact h.push (by rw [woken]; rfl) taken running
      · rename_i full
        cases taken
        refine h.wait fun _ => ?_
        have running : p.stop = false := running
        simpa [hasSpace, running] using full
    · cases taken
  · rename_i i wakes
    unfold ThreadPool.workerStep at taken
    split at taken
    · rename_i pc
      exact h.workerLock (by rw [pc]; rfl) taken running
    · rename_i pc
      exact h.workerLock (by rw [pc]; rfl) taken running
    · rename_i task pc
      cases taken
      have kept : (p.workers i).isWoken = true → WorkerPc.isWoken (F := F) .ready = true := by
        rw [pc]
        exact id
      have moved : (p.setWorker i .ready).Counted := h.setWorker rfl kept
      exact ⟨moved.workers, moved.producers⟩
    · cases taken
    · cases taken
  · split at taken <;> cases taken
    exact h.setWorker rfl fun _ => rfl
  · rename_i i
    split at taken <;> cases taken
    rename_i task waiting
    obtain ⟨waits, leaves⟩ := setProducer_counts p i (.woken task)
    simp only [waiting, ProducerPc.isWaiting, ProducerPc.isWoken, Bool.false_eq_true, if_true,
      if_false] at waits leaves
    refine ⟨h.workers, fun bounded some_ => ?_⟩
    have enough := h.producers bounded (by omega)
    change p.maxTaskSize ≤ p.tasks.length + (p.setProducer i (.woken task)).wokenProducers
    omega
  · cases taken
    cases running
  · split at taken <;> cases taken
    rename_i stop
    cases running.symm.trans stop

theorem new_counted (taskSize : Nat) : (new F n m taskSize).Counted where
  workers _ := Nat.zero_le _
  producers _ some_ := by
    obtain ⟨i, waiting⟩ := (count_pos ..).mp some_
    cases waiting

/-- `_stop` is never taken back. -/
theorem running_step {a : PoolAct F n m} (taken : Steps p a p') (running : p'.stop = false) :
    p.stop = false := by
  have lock {i : Fin n} {wakes : Option (Fin m)} (taken : p.workerLock i wakes = some p') :
      p.stop = false := by
    unfold ThreadPool.workerLock at taken
    split at taken
    · split at taken <;> cases taken <;> exact running
    · dsimp only at taken
      split at taken
      · have stop := (notifyFull_keeps taken).stop
        exact stop.symm.trans running
      · cases taken
        exact running
  have goes {i : Fin m} {task : F} {wakes : Option (Fin n)} (taken : p.push i task wakes = some p') :
      p.stop = false := by
    unfold ThreadPool.push at taken
    split at taken
    · cases taken
      exact running
    · have stop := (notifyReady_keeps taken).stop
      exact stop.symm.trans running
  unfold Steps ThreadPool.step at taken
  split at taken
  · split at taken
    · unfold ThreadPool.addTask at taken
      split at taken
      · cases taken; exact running
      · exact goes taken
    · cases taken
  · split at taken
    · unfold ThreadPool.retest at taken
      split at taken
      · exact goes taken
      · cases taken; exact running
    · cases taken
  · unfold ThreadPool.workerStep at taken
    split at taken
    · exact lock taken
    · exact lock taken
    · cases taken; exact running
    · cases taken
    · cases taken
  · split at taken <;> cases taken
    exact running
  · split at taken <;> cases taken
    exact running
  · cases taken
    cases running
  · split at taken <;> cases taken
    exact running

/-- The destructor wakes all workers and no producer, so the count ends with it. -/
def CountedBeforeStop (p : ThreadPool F n m) : Prop := p.stop = false → p.Counted

theorem CountedBeforeStop.step (h : p.CountedBeforeStop) {a : PoolAct F n m} (taken : Steps p a p') :
    p'.CountedBeforeStop :=
  fun running => (h (running_step taken running)).step taken running

/-- In every run, before the pool is destroyed: where a worker waits while a task is queued, a worker
has woken and is yet to look; and where a producer waits while a slot is free, a producer has woken and
is yet to look. So neither side is ever left waiting as a whole. -/
theorem no_stuck_state (F : Type) (n m taskSize : Nat) (p : ThreadPool F n m)
    (run : Reaches Steps Free (new F n m taskSize) p) (running : p.stop = false) :
    (p.tasks ≠ [] → (∃ i, p.workers i = .waiting) → ∃ j, p.workers j = .woken) ∧
    (p.tasks.length < taskSize → (∃ i task, p.producers i = .waiting task) →
      ∃ j task, p.producers j = .woken task) := by
  have counted : p.CountedBeforeStop := run.invariant (fun _ => new_counted taskSize)
    fun _ _ _ h _ taken => h.step taken
  have size : p.maxTaskSize = taskSize := by
    have accounted : p.Accounted taskSize := run.invariant (new_accounted taskSize)
      fun _ _ _ h _ taken => h.step taken
    exact accounted.size
  refine ⟨fun queued waits => ?_, fun free waits => ?_⟩
  · obtain ⟨i, waiting⟩ := waits
    have some_ : 0 < p.waitingWorkers := (count_pos ..).mpr ⟨i, WorkerPc.isWaiting_iff.mpr waiting⟩
    have enough := (counted running).workers some_
    have positive := List.length_pos_iff.mpr queued
    obtain ⟨j, woken⟩ := (count_pos WorkerPc.isWoken p.workers).mp (Nat.lt_of_lt_of_le positive enough)
    exact ⟨j, WorkerPc.isWoken_iff.mp woken⟩
  · obtain ⟨i, task, waiting⟩ := waits
    have some_ : 0 < p.waitingProducers := (count_pos ..).mpr ⟨i, by rw [waiting]; rfl⟩
    have enough := (counted running).producers (by omega) some_
    have positive : 0 < p.wokenProducers := by omega
    obtain ⟨j, woken⟩ := (count_pos ProducerPc.isWoken p.producers).mp positive
    exact ⟨j, ProducerPc.isWoken_iff.mp woken⟩

/-- Two tasks fill the queue, two workers wake for them and one is left waiting. Two more producers wait,
and the first pop wakes one of them. -/
theorem no_stuck_state_pushed : ∃ q p : ThreadPool Unit 3 3,
    (Reaches Steps Free (new Unit 3 3 2) q ∧ q.tasks ≠ [] ∧ q.workers 2 = .waiting ∧
      ∃ j, q.workers j = .woken) ∧
    (Reaches Steps Free (new Unit 3 3 2) p ∧ p.tasks.length < 2 ∧ p.producers 2 = .waiting () ∧
      ∃ j task, p.producers j = .woken task) := by
  let filled : List (PoolAct Unit 3 3) :=
    [.worker 0 none, .worker 1 none, .worker 2 none, .addTask 0 () (some 0), .addTask 0 () (some 1),
      .addTask 1 () none, .addTask 2 () none]
  let q := (filled.foldlM step (new Unit 3 3 2)).getD (new Unit 3 3 2)
  let p := (q.step (.worker 0 (some 1))).getD q
  have run : Reaches Steps Free (new Unit 3 3 2) q := .of_labels step filled rfl
  have pops : Reaches Steps Free (new Unit 3 3 2) p := run.step (a := .worker 0 (some 1)) trivial rfl
  exact ⟨q, p, ⟨run, List.cons_ne_nil _ _, rfl,
      (no_stuck_state Unit 3 3 2 q run rfl).1 (List.cons_ne_nil _ _) ⟨2, rfl⟩⟩,
    pops, by decide, rfl, (no_stuck_state Unit 3 3 2 p pops rfl).2 (by decide) ⟨2, (), rfl⟩⟩

end Yamq.ThreadPool
