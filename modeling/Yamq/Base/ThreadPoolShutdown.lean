import Yamq.Base.ThreadPoolWaiters

/-! What the destructor of the thread pool leaves behind. It wakes the workers, which run what is queued and
return; the producers that wait for space it does not wake, and each task that a worker takes wakes one. -/
namespace Yamq

def WorkerPc.isRunning {F : Type} : WorkerPc F → Bool
  | .running _ => true
  | _ => false

/-- A worker that has a step of its own. -/
def WorkerPc.isLive {F : Type} : WorkerPc F → Bool
  | .ready => true
  | .woken => true
  | .running _ => true
  | _ => false

namespace ThreadPool

open Transition Census

variable {F : Type} {n m : Nat} {p p' : ThreadPool F n m} {taskSize : Nat}

def runningWorkers (p : ThreadPool F n m) : Nat := count WorkerPc.isRunning p.workers
def liveWorkers (p : ThreadPool F n m) : Nat := count WorkerPc.isLive p.workers

theorem setWorker_live (p : ThreadPool F n m) (i : Fin n) (pc : WorkerPc F) :
    ((p.setWorker i pc).runningWorkers + (if (p.workers i).isRunning then 1 else 0) =
      p.runningWorkers + if pc.isRunning then 1 else 0) ∧
    ((p.setWorker i pc).liveWorkers + (if (p.workers i).isLive then 1 else 0) =
      p.liveWorkers + if pc.isLive then 1 else 0) :=
  ⟨count_update .., count_update ..⟩

/-! Once `_stop` is set, a producer that does not wait leaves without a push. -/

theorem push_stopped {i : Fin m} {task : F} {wakes : Option (Fin n)} (stop : p.stop = true) :
    p.push i task wakes = some (p.setProducer i .idle) := by
  unfold push
  exact if_pos stop

theorem hasSpace_stopped (stop : p.stop = true) : p.hasSpace = true := by
  rw [hasSpace, stop, Bool.true_or]

theorem addTask_stopped {i : Fin m} {task : F} {wakes : Option (Fin n)} (stop : p.stop = true) :
    p.addTask i task wakes = some (p.setProducer i .idle) := by
  unfold addTask
  rw [if_neg fun full => by simp [hasSpace_stopped stop] at full, push_stopped stop]

theorem retest_stopped {i : Fin m} {task : F} {wakes : Option (Fin n)} (stop : p.stop = true) :
    p.retest i task wakes = some (p.setProducer i .idle) := by
  unfold retest
  rw [if_pos (hasSpace_stopped stop), push_stopped stop]

/-- A worker has taken the first task, and has not notified. -/
def popTask (p : ThreadPool F n m) (i : Fin n) (task : PoolTask F) (rest : List (PoolTask F)) :
    ThreadPool F n m :=
  { p with tasks := rest, popped := p.popped ++ [task.ticket] }.setWorker i (.running task)

/-- A worker that is not running a task, once `_stop` is set: it returns, or takes a task. -/
theorem workerLock_stopped {i : Fin n} {wakes : Option (Fin m)} (stop : p.stop = true)
    (taken : p.workerLock i wakes = some p') :
    (p.tasks = [] ∧ p' = p.setWorker i .returned) ∨
    (∃ task rest, p.tasks = task :: rest ∧ (if 0 < p.maxTaskSize then
      (p.popTask i task rest).notifyFull wakes else some (p.popTask i task rest)) = some p') := by
  unfold workerLock at taken
  split at taken
  · rename_i empty
    rw [if_pos stop] at taken
    cases taken
    exact .inl ⟨empty, rfl⟩
  · rename_i task rest queue
    exact .inr ⟨task, rest, queue, taken⟩

/-- What a step does once `_stop` is set. -/
inductive StoppedStep (p : ThreadPool F n m) : PoolAct F n m → ThreadPool F n m → Prop where
  | leave (a : PoolAct F n m) (i : Fin m) : (p.producers i).isWaiting = false →
      ((∃ task wakes, a = .addTask i task wakes) ∨ ∃ wakes, a = .producer i wakes) →
      StoppedStep p a (p.setProducer i .idle)
  | ends (i : Fin n) (wakes : Option (Fin m)) : p.workers i = .ready ∨ p.workers i = .woken →
      p.tasks = [] → StoppedStep p (.worker i wakes) (p.setWorker i .returned)
  | takes (i : Fin n) (wakes : Option (Fin m)) (task : PoolTask F) (rest : List (PoolTask F))
      (p' : ThreadPool F n m) : p.workers i = .ready ∨ p.workers i = .woken → p.tasks = task :: rest →
      (if 0 < p.maxTaskSize then (p.popTask i task rest).notifyFull wakes
        else some (p.popTask i task rest)) = some p' → StoppedStep p (.worker i wakes) p'
  | runs (i : Fin n) (wakes : Option (Fin m)) (task : PoolTask F) : p.workers i = .running task →
      StoppedStep p (.worker i wakes) ({ p with ran := p.ran ++ [task.ticket] }.setWorker i .ready)
  | wakes (i : Fin n) : p.workers i = .waiting →
      StoppedStep p (.spuriousWorker i) (p.setWorker i .woken)
  | wakesProducer (i : Fin m) (task : F) : p.producers i = .waiting task →
      StoppedStep p (.spuriousProducer i) (p.setProducer i (.woken task))
  | stop : StoppedStep p .stop p
  | notifyAll : StoppedStep p .notifyAll
      { p with workers := fun i => if (p.workers i).isWaiting then .woken else p.workers i }

theorem stopped_step {a : PoolAct F n m} (stop : p.stop = true) (taken : Steps p a p') :
    StoppedStep p a p' := by
  cases a with
  | addTask i task wakes =>
    simp only [Steps, step] at taken
    split at taken
    · rename_i idle
      rw [addTask_stopped stop] at taken
      cases taken
      exact .leave _ i (by rw [idle]; rfl) (.inl ⟨task, wakes, rfl⟩)
    · cases taken
  | producer i wakes =>
    simp only [Steps, step] at taken
    split at taken
    · rename_i woken
      rw [retest_stopped stop] at taken
      cases taken
      exact .leave _ i (by rw [woken]; rfl) (.inr ⟨wakes, rfl⟩)
    · cases taken
  | worker i wakes =>
    simp only [Steps, step, workerStep] at taken
    have lock (free : p.workers i = .ready ∨ p.workers i = .woken)
        (taken : p.workerLock i wakes = some p') : StoppedStep p (.worker i wakes) p' := by
      rcases workerLock_stopped stop taken with ⟨empty, rfl⟩ | ⟨task, rest, queue, notifies⟩
      · exact .ends i wakes free empty
      · exact .takes i wakes task rest p' free queue notifies
    split at taken
    · exact lock (.inl ‹_›) taken
    · exact lock (.inr ‹_›) taken
    · cases taken
      exact .runs i wakes _ ‹_›
    · cases taken
    · cases taken
  | spuriousWorker i =>
    simp only [Steps, step] at taken
    split at taken <;> cases taken
    exact .wakes i (WorkerPc.isWaiting_iff.mp ‹_›)
  | spuriousProducer i =>
    simp only [Steps, step] at taken
    split at taken <;> cases taken
    exact .wakesProducer i _ ‹_›
  | stop =>
    cases taken
    have same : { p with stop := true } = p := by rw [← stop]
    rw [same]
    exact .stop
  | notifyAll =>
    simp only [Steps, step] at taken
    rw [if_pos stop] at taken
    cases taken
    exact .notifyAll

theorem StoppedStep.stays {a : PoolAct F n m} (step : StoppedStep p a p') (stop : p.stop = true) :
    p'.stop = true ∧ p'.maxTaskSize = p.maxTaskSize := by
  cases step with
  | leave | ends | runs | wakes | wakesProducer | stop | notifyAll => exact ⟨stop, rfl⟩
  | takes i wakes task rest _ free queue notifies =>
    split at notifies
    · have keeps := notifyFull_keeps notifies
      exact ⟨keeps.stop.trans stop, keeps.maxTaskSize⟩
    · cases notifies
      exact ⟨stop, rfl⟩

/-! The producers. -/

theorem notifyFull_waiting {wakes : Option (Fin m)} (taken : p.notifyFull wakes = some p') :
    p'.waitingProducers = p.waitingProducers - 1 := by
  unfold notifyFull at taken
  split at taken
  · rename_i j
    split at taken <;> cases taken
    rename_i task waiting
    have fewer := (setProducer_counts p j (.woken task)).1
    simp only [waiting, ProducerPc.isWaiting, Bool.false_eq_true, if_true, if_false] at fewer
    omega
  · split at taken <;> cases taken
    rename_i nobody
    have none : p.waitingProducers = 0 := (count_zero ..).mpr nobody
    omega

theorem setProducer_waiting {i : Fin m} {pc : ProducerPc F} (was : (p.producers i).isWaiting = false)
    (is : pc.isWaiting = false) : (p.setProducer i pc).waitingProducers = p.waitingProducers := by
  have same := (setProducer_counts p i pc).1
  rw [was, is] at same
  exact same

def PoolAct.wakesProducer : PoolAct F n m → Bool
  | .spuriousProducer _ => true
  | _ => false

/-- Each task that leaves the queue takes one producer with it, as long as there is one. -/
theorem StoppedStep.surplus {a : PoolAct F n m} (step : StoppedStep p a p')
    (calm : PoolAct.wakesProducer a = false) (bounded : 0 < p.maxTaskSize) :
    p'.waitingProducers - p'.tasks.length = p.waitingProducers - p.tasks.length := by
  cases step with
  | leave _ i awake =>
    rw [setProducer_waiting awake rfl]
    rfl
  | ends | runs | wakes | stop | notifyAll => rfl
  | takes i wakes task rest _ free queue notifies =>
    rw [if_pos bounded] at notifies
    have fewer := notifyFull_waiting notifies
    have same : (p.popTask i task rest).waitingProducers = p.waitingProducers := rfl
    have tasks : p'.tasks = rest := (notifyFull_keeps notifies).tasks
    rw [fewer, same, tasks, queue, List.length_cons]
    omega
  | wakesProducer => cases calm

/-- The pool when every worker has returned. -/
structure Ended (p : ThreadPool F n m) : Prop where
  stop : p.stop = true
  workers : ∀ i, p.workers i = .returned

theorem Ended.step (h : p.Ended) {a : PoolAct F n m} (calm : PoolAct.wakesProducer a = false)
    (taken : Steps p a p') :
    p'.Ended ∧ ∀ i task, p.producers i = .waiting task → p'.producers i = .waiting task := by
  have gone {i : Fin n} : p.workers i ≠ .ready ∧ p.workers i ≠ .woken ∧ p.workers i ≠ .waiting ∧
      ∀ task, p.workers i ≠ .running task := by
    rw [h.workers i]
    simp
  have step := stopped_step h.stop taken
  have stop := (step.stays h.stop).1
  cases step with
  | leave _ i awake =>
    refine ⟨⟨stop, h.workers⟩, fun j task waits => ?_⟩
    have other : j ≠ i := by
      rintro rfl
      rw [waits] at awake
      cases awake
    simpa only [setProducer, Function.update_of_ne other] using waits
  | ends i wakes free | takes i wakes task rest _ free =>
    rcases free with ready | woken
    · exact absurd ready gone.1
    · exact absurd woken gone.2.1
  | runs i wakes task running => exact absurd running (gone.2.2.2 task)
  | wakes i waits => exact absurd waits gone.2.2.1
  | wakesProducer => cases calm
  | stop => exact ⟨h, fun _ _ => id⟩
  | notifyAll =>
    refine ⟨⟨stop, fun i => ?_⟩, fun _ _ => id⟩
    simp [h.workers i, WorkerPc.isWaiting]

/-- The state in which the destructor leaves its section. -/
def stopped (q : ThreadPool F n m) : ThreadPool F n m := { q with stop := true }

theorem surplus_of_run (bounded : 0 < p.maxTaskSize)
    (after : Reaches Steps (fun _ a => PoolAct.wakesProducer a = false) p.stopped p') :
    p'.stop = true ∧ p'.waitingProducers - p'.tasks.length = p.waitingProducers - p.tasks.length := by
  have all : p'.stop = true ∧ p'.maxTaskSize = p.maxTaskSize ∧
      p'.waitingProducers - p'.tasks.length = p.waitingProducers - p.tasks.length := by
    induction after with
    | start => exact ⟨rfl, rfl, rfl⟩
    | step _ calm taken ih =>
      obtain ⟨stop, size, same⟩ := ih
      have step := stopped_step stop taken
      obtain ⟨stays, keeps⟩ := step.stays stop
      exact ⟨stays, keeps.trans size, (step.surplus calm (size ▸ bounded)).trans same⟩
  exact ⟨all.1, all.2.2⟩

/-- A bounded pool is destroyed while producers wait in `addTask`, and no thread wakes for no reason. What
waits beyond what is queued stays the same to the end: when every worker has returned, that many producers
wait, and they wait for ever. So some are left behind whenever more wait than the pool may hold. -/
theorem producers_left_behind (F : Type) (n m taskSize : Nat) (q p : ThreadPool F n m)
    (bounded : 0 < taskSize) (before : Reaches Steps Free (new F n m taskSize) q)
    (after : Reaches Steps (fun _ a => PoolAct.wakesProducer a = false) q.stopped p) :
    p.waitingProducers - p.tasks.length = q.waitingProducers - q.tasks.length ∧
    (taskSize < q.waitingProducers → ∃ i task, p.producers i = .waiting task) ∧
    (0 < n → (∀ i, p.workers i = .returned) →
      p.waitingProducers = q.waitingProducers - q.tasks.length ∧
      ∀ p', Reaches Steps (fun _ a => PoolAct.wakesProducer a = false) p p' →
        ∀ i task, p.producers i = .waiting task → p'.producers i = .waiting task) := by
  have accounted : q.Accounted taskSize := before.invariant (new_accounted taskSize)
    fun _ _ _ h _ taken => h.step taken
  have size : 0 < q.maxTaskSize := accounted.size ▸ bounded
  obtain ⟨stop, surplus⟩ := surplus_of_run size after
  refine ⟨surplus, fun many => ?_, fun some_ returned => ⟨?_, ?_⟩⟩
  · have room := accounted.bound size
    rw [accounted.size] at room
    have waits : 0 < p.waitingProducers := by omega
    obtain ⟨i, waits⟩ := (count_pos ..).mp waits
    cases pc : p.producers i with
    | waiting task => exact ⟨i, task, pc⟩
    | idle | woken =>
      rw [pc] at waits
      cases waits
  · have whole : p.Accounted taskSize := by
      have front : Reaches Steps Free (new F n m taskSize) q.stopped := before.step (a := .stop) trivial rfl
      exact (front.trans (after.mono fun _ _ _ => trivial)).invariant (new_accounted taskSize)
        fun _ _ _ h _ taken => h.step taken
    have empty := (whole.ended ⟨0, some_⟩ (returned _)).2
    rw [empty] at surplus
    exact surplus
  · intro p' further
    have all : p'.Ended ∧ ∀ i task, p.producers i = .waiting task → p'.producers i = .waiting task := by
      induction further with
      | start => exact ⟨⟨stop, returned⟩, fun _ _ => id⟩
      | step _ calm taken ih =>
        obtain ⟨ended, waits⟩ := ih.1.step calm taken
        exact ⟨ended, fun i task waited => waits i task (ih.2 i task waited)⟩
    exact all.2

/-- A pool for one task, which is queued, and two producers behind it. -/
theorem producers_left_behind_two : ∃ q p : ThreadPool Unit 1 3,
    Reaches Steps (fun _ a => PoolAct.wakesProducer a = false) q.stopped p ∧
      (∀ i, p.workers i = .returned) ∧ p.waitingProducers = q.waitingProducers - q.tasks.length ∧
      ∃ i task, p.producers i = .waiting task := by
  let before : List (PoolAct Unit 1 3) := [.addTask 0 () none, .addTask 1 () none, .addTask 2 () none]
  let q := (before.foldlM step (new Unit 1 3 1)).getD (new Unit 1 3 1)
  have reached : Reaches Steps Free (new Unit 1 3 1) q := .of_labels step before rfl
  let after : List (PoolAct Unit 1 3) :=
    [.notifyAll, .worker 0 (some 1), .producer 1 none, .worker 0 none, .worker 0 none]
  let p := (after.foldlM step q.stopped).getD q.stopped
  have run : Reaches Steps (fun _ a => PoolAct.wakesProducer a = false) q.stopped p :=
    .of_checked step (fun _ a => !PoolAct.wakesProducer a) (fun _ _ => Bool.eq_false_iff.mpr ∘ by simp)
      after rfl
  have ended (i : Fin 1) : p.workers i = .returned := by
    rw [Fin.fin_one_eq_zero i]
    rfl
  obtain ⟨-, some_, all⟩ := producers_left_behind Unit 1 3 1 q p Nat.one_pos reached run
  exact ⟨q, p, run, ended, (all Nat.one_pos ended).1, some_ (by decide)⟩

/-! The workers. -/

def PoolAct.isWorker : PoolAct F n m → Bool
  | .worker .. => true
  | _ => false

def workerRank (p : ThreadPool F n m) : Nat := 2 * p.tasks.length + p.runningWorkers + p.liveWorkers

theorem popTask_rank {i : Fin n} {task : PoolTask F} {rest : List (PoolTask F)}
    (free : p.workers i = .ready ∨ p.workers i = .woken) (queue : p.tasks = task :: rest) :
    (p.popTask i task rest).workerRank + 1 = p.workerRank := by
  obtain ⟨running, live⟩ := setWorker_live p i (.running task)
  have was : (p.workers i).isRunning = false ∧ (p.workers i).isLive = true := by
    rcases free with pc | pc <;> rw [pc] <;> exact ⟨rfl, rfl⟩
  have becomes : (WorkerPc.running task).isRunning = true ∧ (WorkerPc.running task).isLive = true :=
    ⟨rfl, rfl⟩
  simp only [was, becomes, Bool.false_eq_true, if_true, if_false] at running live
  change 2 * rest.length + (p.setWorker i (.running task)).runningWorkers +
    (p.setWorker i (.running task)).liveWorkers + 1 = 2 * p.tasks.length + p.runningWorkers + p.liveWorkers
  rw [queue, List.length_cons]
  omega

/-- After `notify_all` no worker waits any more, and each of their steps brings the end nearer. -/
theorem StoppedStep.workerRank {a : PoolAct F n m} (step : StoppedStep p a p')
    (awake : p.waitingWorkers = 0) :
    p'.waitingWorkers = 0 ∧ p'.workerRank + (if PoolAct.isWorker a then 1 else 0) ≤ p.workerRank := by
  have nobody := (count_zero ..).mp awake
  have stays {i : Fin n} {pc : WorkerPc F} (other : pc.isWaiting = false) :
      (p.setWorker i pc).waitingWorkers = 0 := by
    have counts := (setWorker_counts p i pc).1
    rw [other] at counts
    exact Nat.eq_zero_of_add_eq_zero_right (counts.trans awake)
  cases step with
  | leave _ i _ either =>
    rcases either with ⟨_, _, rfl⟩ | ⟨_, rfl⟩ <;> exact ⟨awake, Nat.le_refl _⟩
  | ends i wakes free empty =>
    refine ⟨stays rfl, ?_⟩
    obtain ⟨running, live⟩ := setWorker_live p i .returned
    have was : (p.workers i).isRunning = false ∧ (p.workers i).isLive = true := by
      rcases free with pc | pc <;> rw [pc] <;> exact ⟨rfl, rfl⟩
    have becomes : (WorkerPc.returned : WorkerPc F).isRunning = false ∧
        (WorkerPc.returned : WorkerPc F).isLive = false := ⟨rfl, rfl⟩
    simp only [was, becomes, Bool.false_eq_true, if_true, if_false] at running live
    change 2 * p.tasks.length + (p.setWorker i .returned).runningWorkers +
      (p.setWorker i .returned).liveWorkers + 1 ≤ 2 * p.tasks.length + p.runningWorkers + p.liveWorkers
    omega
  | takes i wakes task rest _ free queue notifies =>
    have less := popTask_rank free queue
    have waits : (p.popTask i task rest).waitingWorkers = 0 := stays rfl
    split at notifies
    · obtain ⟨tasks, -, workers, -, -⟩ := notifyFull_counts notifies
      have same : p'.workerRank = (p.popTask i task rest).workerRank := by
        simp only [ThreadPool.workerRank, runningWorkers, liveWorkers, tasks, workers]
      refine ⟨?_, ?_⟩
      · rw [waitingWorkers, workers]
        exact waits
      · rw [same]
        exact Nat.le_of_eq less
    · cases notifies
      exact ⟨waits, Nat.le_of_eq less⟩
  | runs i wakes task pc =>
    refine ⟨stays rfl, ?_⟩
    obtain ⟨running, live⟩ := setWorker_live p i .ready
    have becomes : (WorkerPc.ready : WorkerPc F).isRunning = false ∧
        (WorkerPc.ready : WorkerPc F).isLive = true := ⟨rfl, rfl⟩
    have was : (WorkerPc.running task).isRunning = true ∧ (WorkerPc.running task).isLive = true :=
      ⟨rfl, rfl⟩
    simp only [pc, was, becomes, Bool.false_eq_true, if_true, if_false] at running live
    change 2 * p.tasks.length + (p.setWorker i .ready).runningWorkers +
      (p.setWorker i .ready).liveWorkers + 1 ≤ 2 * p.tasks.length + p.runningWorkers + p.liveWorkers
    omega
  | wakes i waits =>
    have none := nobody i
    rw [waits] at none
    cases none
  | wakesProducer => exact ⟨awake, Nat.le_refl _⟩
  | stop => exact ⟨awake, Nat.le_refl _⟩
  | notifyAll =>
    have same : (fun i => if (p.workers i).isWaiting then .woken else p.workers i) = p.workers := by
      funext i
      rw [nobody i]
      rfl
    rw [same]
    exact ⟨awake, Nat.le_refl _⟩

/-- A worker that neither waits nor has returned can go on. -/
theorem exists_workerStep {i : Fin n} (live : (p.workers i).isLive = true) :
    ∃ wakes p', Steps p (.worker i wakes) p' := by
  have notifies (q : ThreadPool F n m) : ∃ wakes p', q.notifyFull wakes = some p' := by
    by_cases waits : ∃ j, (q.producers j).isWaiting = true
    · obtain ⟨j, waits⟩ := waits
      cases pc : q.producers j with
      | waiting task => exact ⟨some j, q.setProducer j (.woken task), by simp [notifyFull, pc]⟩
      | idle | woken =>
        rw [pc] at waits
        cases waits
    · have nobody : ∀ j, (q.producers j).isWaiting = false := fun j =>
        Bool.eq_false_iff.mpr fun some_ => waits ⟨j, some_⟩
      exact ⟨none, q, if_pos nobody⟩
  have lock : ∃ wakes p', p.workerLock i wakes = some p' := by
    unfold workerLock
    split
    · split <;> exact ⟨none, _, rfl⟩
    · dsimp only
      split
      · exact notifies _
      · exact ⟨none, _, rfl⟩
  obtain ⟨wakes, p', locks⟩ := lock
  cases pc : p.workers i with
  | ready => exact ⟨wakes, p', by simpa only [Steps, step, workerStep, pc] using locks⟩
  | woken => exact ⟨wakes, p', by simpa only [Steps, step, workerStep, pc] using locks⟩
  | running task => exact ⟨none, _, by simp only [Steps, step, workerStep, pc]; rfl⟩
  | waiting | returned =>
    rw [pc] at live
    cases live

theorem Accounted.all_ran (h : p.Accounted taskSize) (some_ : 0 < n)
    (returned : ∀ i, p.workers i = .returned) : p.tasks = [] ∧ ∀ t < p.pushed, t ∈ p.ran := by
  have empty := (h.ended ⟨0, some_⟩ (returned _)).2
  refine ⟨empty, fun t pushed => ?_⟩
  have popped : t ∈ p.popped := by
    have order := h.order
    rw [empty, List.map_nil, List.append_nil] at order
    exact order ▸ List.mem_range.mpr pushed
  rcases h.popped t popped with ran | ⟨i, task, running, _⟩
  · exact ran
  · rw [ThreadPool.held, returned i] at running
    cases running

/-- The pool behind `notify_all`. -/
structure Awake (p : ThreadPool F n m) : Prop where
  stop : p.stop = true
  workers : p.waitingWorkers = 0

theorem Awake.step (h : p.Awake) {a : PoolAct F n m} (taken : Steps p a p') : p'.Awake where
  stop := ((stopped_step h.stop taken).stays h.stop).1
  workers := ((stopped_step h.stop taken).workerRank h.workers).1

theorem notifyAll_awake (taken : Steps p .notifyAll p') : p'.Awake := by
  simp only [Steps, step] at taken
  split at taken
  · rename_i stop
    cases taken
    refine ⟨stop, (count_zero ..).mpr fun i => ?_⟩
    cases waits : (p.workers i).isWaiting with
    | true =>
      simp only [waits, if_true]
      rfl
    | false => simp [waits]
  · cases taken

theorem workerRank_le (p : ThreadPool F n m) : p.workerRank ≤ 2 * (p.tasks.length + n) := by
  have running : p.runningWorkers ≤ Fintype.card (Fin n) := count_le_card ..
  have live : p.liveWorkers ≤ Fintype.card (Fin n) := count_le_card ..
  rw [Fintype.card_fin] at running live
  simp only [workerRank]
  omega

/-- The joins of the destructor return. Behind its `notify_all`, whatever the order of the steps, the workers
take at most two steps for each queued task and for each worker; and where none has a step left, each of them
has returned, and every task that was pushed has run. -/
theorem destructor_returns (F : Type) (n m taskSize : Nat) (q p p' : ThreadPool F n m)
    (labels : List (PoolAct F n m)) (before : Reaches Steps Free (new F n m taskSize) q)
    (woken : Steps q .notifyAll p) (after : Runs Steps Free p labels p') :
    labels.countP PoolAct.isWorker ≤ 2 * (p.tasks.length + n) ∧
    ((∀ i wakes p'', ¬ Steps p' (.worker i wakes) p'') →
      (∀ i, p'.workers i = .returned) ∧ (0 < n → p'.tasks = [] ∧ ∀ t < p'.pushed, t ∈ p'.ran)) := by
  have start := notifyAll_awake woken
  constructor
  · have bound := after.countP_le Awake PoolAct.isWorker workerRank start
      (fun _ _ _ h _ taken => h.step taken)
      (fun _ _ _ h _ taken => ((stopped_step h.stop taken).workerRank h.workers).2)
    have most := p.workerRank_le
    omega
  · intro nothing
    have awake : p'.Awake := after.reaches.invariant start fun _ _ _ h _ taken => h.step taken
    have returned (i : Fin n) : p'.workers i = .returned := by
      have none := (count_zero ..).mp awake.workers i
      cases pc : p'.workers i with
      | returned => rfl
      | waiting =>
        rw [pc] at none
        cases none
      | ready | woken | running =>
        obtain ⟨wakes, p'', taken⟩ := exists_workerStep (p := p') (i := i) (by rw [pc]; rfl)
        exact absurd taken (nothing i wakes p'')
    have whole : p'.Accounted taskSize := by
      have front : Reaches Steps Free (new F n m taskSize) p := before.step trivial woken
      exact (front.trans after.reaches).invariant (new_accounted taskSize) fun _ _ _ h _ taken =>
        h.step taken
    exact ⟨returned, fun some_ => whole.all_ran some_ returned⟩

/-- Two tasks and two workers, of which one waits when the first task comes. -/
theorem destructor_returns_two : ∃ p : ThreadPool Unit 2 1, (∀ i, p.workers i = .returned) ∧
    p.pushed = 2 ∧ ∀ t < p.pushed, t ∈ p.ran := by
  let before : List (PoolAct Unit 2 1) :=
    [.worker 1 none, .addTask 0 () (some 1), .addTask 0 () none, .worker 0 none, .stop]
  let q := (before.foldlM step (new Unit 2 1 0)).getD (new Unit 2 1 0)
  have reached : Reaches Steps Free (new Unit 2 1 0) q := .of_labels step before rfl
  let p := (q.step .notifyAll).getD q
  have woken : Steps q .notifyAll p := rfl
  let after : List (PoolAct Unit 2 1) :=
    [.worker 1 none, .worker 1 none, .worker 1 none, .worker 0 none, .worker 0 none]
  let p' := (after.foldlM step p).getD p
  have run : Runs Steps Free p after p' := .of_labels step after rfl
  have ended : ∀ i, p'.workers i = .returned
    | 0 => rfl
    | 1 => rfl
  have nothing (i : Fin 2) (wakes : Option (Fin 1)) (p'' : ThreadPool Unit 2 1) :
      ¬ Steps p' (.worker i wakes) p'' := by
    intro taken
    simp only [Steps, step, workerStep, ended i] at taken
    cases taken
  obtain ⟨returned, all⟩ := (destructor_returns Unit 2 1 0 q p p' after reached woken run).2 nothing
  exact ⟨p', returned, rfl, (all (by decide)).2⟩

end ThreadPool
end Yamq
