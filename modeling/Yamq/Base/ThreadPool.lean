import Yamq.Lib.Transition
import Mathlib.Data.Fintype.Basic
import Mathlib.Data.List.Nodup
import Mathlib.Logic.Function.Basic

/-! `base/thread_pool.cpp` with `n` workers and `m` producers. Each section under the lock is one step; a
condition variable is the set of the threads that wait at it, of which `notify_one` wakes one. A thread
may also wake for no reason, as the library allows. -/
namespace Yamq

/-- A task in the queue, with its number among those that `addTask` has pushed. -/
structure PoolTask (F : Type) where
  ticket : Nat
  task : F
deriving DecidableEq, Repr

inductive WorkerPc (F : Type) where
  | ready                          -- before the lock, at the top of the loop
  | waiting                        -- at `_readyCondition`
  | woken                          -- before it tests the predicate again
  | running (task : PoolTask F)
  | returned
deriving DecidableEq, Repr

inductive ProducerPc (F : Type) where
  | idle
  | waiting (task : F)             -- at `_fullCondition`
  | woken (task : F)
deriving DecidableEq, Repr

def WorkerPc.isWaiting {F : Type} : WorkerPc F → Bool
  | .waiting => true
  | _ => false

def WorkerPc.isWoken {F : Type} : WorkerPc F → Bool
  | .woken => true
  | _ => false

def WorkerPc.task? {F : Type} : WorkerPc F → Option (PoolTask F)
  | .running task => some task
  | _ => none

def ProducerPc.isWaiting {F : Type} : ProducerPc F → Bool
  | .waiting _ => true
  | _ => false

def ProducerPc.isWoken {F : Type} : ProducerPc F → Bool
  | .woken _ => true
  | _ => false

theorem WorkerPc.isWaiting_iff {F : Type} {pc : WorkerPc F} : pc.isWaiting = true ↔ pc = .waiting := by
  cases pc <;> simp [WorkerPc.isWaiting]

theorem WorkerPc.isWoken_iff {F : Type} {pc : WorkerPc F} : pc.isWoken = true ↔ pc = .woken := by
  cases pc <;> simp [WorkerPc.isWoken]

theorem ProducerPc.isWoken_iff {F : Type} {pc : ProducerPc F} :
    pc.isWoken = true ↔ ∃ task, pc = .woken task := by
  cases pc <;> simp [ProducerPc.isWoken]

structure ThreadPool (F : Type) (n m : Nat) where
  tasks : List (PoolTask F) := []
  stop : Bool := false
  maxTaskSize : Nat
  workers : Fin n → WorkerPc F := fun _ => .ready
  producers : Fin m → ProducerPc F := fun _ => .idle
  /-- how many tasks have been pushed, and which have been popped and have run -/
  pushed : Nat := 0
  popped : List Nat := []
  ran : List Nat := []

namespace ThreadPool

variable {F : Type} {n m : Nat}

def setWorker (p : ThreadPool F n m) (i : Fin n) (pc : WorkerPc F) : ThreadPool F n m :=
  { p with workers := Function.update p.workers i pc }

def setProducer (p : ThreadPool F n m) (i : Fin m) (pc : ProducerPc F) : ThreadPool F n m :=
  { p with producers := Function.update p.producers i pc }

/-- `_readyCondition.notify_one()`, with the worker that it wakes, if one waits. -/
def notifyReady (p : ThreadPool F n m) : Option (Fin n) → Option (ThreadPool F n m)
  | some j => if (p.workers j).isWaiting then some (p.setWorker j .woken) else none
  | none => if ∀ j, (p.workers j).isWaiting = false then some p else none

/-- `_fullCondition.notify_one()`. -/
def notifyFull (p : ThreadPool F n m) : Option (Fin m) → Option (ThreadPool F n m)
  | some j =>
    match p.producers j with
    | .waiting task => some (p.setProducer j (.woken task))
    | _ => none
  | none => if ∀ j, (p.producers j).isWaiting = false then some p else none

/-- A pass of a worker through the lock. -/
def workerLock (p : ThreadPool F n m) (i : Fin n) (wakes : Option (Fin m)) :
    Option (ThreadPool F n m) :=
  match p.tasks with
  | [] => if p.stop then some (p.setWorker i .returned) else some (p.setWorker i .waiting)
  | task :: rest =>
    let p := { p with tasks := rest, popped := p.popped ++ [task.ticket] }.setWorker i (.running task)
    if 0 < p.maxTaskSize then p.notifyFull wakes else some p

def workerStep (p : ThreadPool F n m) (i : Fin n) (wakes : Option (Fin m)) :
    Option (ThreadPool F n m) :=
  match p.workers i with
  | .ready => p.workerLock i wakes
  | .woken => p.workerLock i wakes
  | .running task => some ({ p with ran := p.ran ++ [task.ticket] }.setWorker i .ready)
  | .waiting => none
  | .returned => none

/-- The predicate that a producer waits for. -/
def hasSpace (p : ThreadPool F n m) : Bool := p.stop || decide (p.tasks.length < p.maxTaskSize)

/-- The rest of `addTask`. -/
def push (p : ThreadPool F n m) (i : Fin m) (task : F) (wakes : Option (Fin n)) :
    Option (ThreadPool F n m) :=
  if p.stop then some (p.setProducer i .idle)
  else
    let p' := { p with tasks := p.tasks ++ [PoolTask.mk p.pushed task], pushed := p.pushed + 1 }
    (p'.setProducer i .idle).notifyReady wakes

def addTask (p : ThreadPool F n m) (i : Fin m) (task : F) (wakes : Option (Fin n)) :
    Option (ThreadPool F n m) :=
  if 0 < p.maxTaskSize ∧ p.maxTaskSize ≤ p.tasks.length ∧ p.hasSpace = false then
    some (p.setProducer i (.waiting task))
  else p.push i task wakes

/-- A producer that has woken tests the predicate again. -/
def retest (p : ThreadPool F n m) (i : Fin m) (task : F) (wakes : Option (Fin n)) :
    Option (ThreadPool F n m) :=
  if p.hasSpace then p.push i task wakes else some (p.setProducer i (.waiting task))

inductive PoolAct (F : Type) (n m : Nat) where
  | addTask (i : Fin m) (task : F) (wakes : Option (Fin n))
  | producer (i : Fin m) (wakes : Option (Fin n))
  | worker (i : Fin n) (wakes : Option (Fin m))
  | spuriousWorker (i : Fin n)
  | spuriousProducer (i : Fin m)
  | stop           -- the destructor's section
  | notifyAll      -- its `_readyCondition.notify_all()`
deriving DecidableEq, Repr

def step (p : ThreadPool F n m) : PoolAct F n m → Option (ThreadPool F n m)
  | .addTask i task wakes =>
    match p.producers i with
    | .idle => p.addTask i task wakes
    | _ => none
  | .producer i wakes =>
    match p.producers i with
    | .woken task => p.retest i task wakes
    | _ => none
  | .worker i wakes => p.workerStep i wakes
  | .spuriousWorker i => if (p.workers i).isWaiting then some (p.setWorker i .woken) else none
  | .spuriousProducer i =>
    match p.producers i with
    | .waiting task => some (p.setProducer i (.woken task))
    | _ => none
  | .stop => some { p with stop := true }
  | .notifyAll =>
    if p.stop then
      some { p with workers := fun i => if (p.workers i).isWaiting then .woken else p.workers i }
    else none

def Steps (p : ThreadPool F n m) (a : PoolAct F n m) (p' : ThreadPool F n m) : Prop :=
  p.step a = some p'

def new (F : Type) (n m taskSize : Nat) : ThreadPool F n m := { maxTaskSize := taskSize }

/-- The task that a worker has popped and not finished. -/
def held (p : ThreadPool F n m) (i : Fin n) : Option (PoolTask F) := (p.workers i).task?

/-- Each task that was pushed is in one place, and the places together are in the order of the pushes. -/
structure Accounted (taskSize : Nat) (p : ThreadPool F n m) : Prop where
  size : p.maxTaskSize = taskSize
  bound : 0 < p.maxTaskSize → p.tasks.length ≤ p.maxTaskSize
  order : p.popped ++ p.tasks.map PoolTask.ticket = List.range p.pushed
  once : p.ran.Nodup
  ran : ∀ t ∈ p.ran, t ∈ p.popped
  held : ∀ i task, p.held i = some task → task.ticket ∈ p.popped ∧ task.ticket ∉ p.ran
  apart : ∀ i j task task', p.held i = some task → p.held j = some task' →
    task.ticket = task'.ticket → i = j
  popped : ∀ t ∈ p.popped, t ∈ p.ran ∨ ∃ i task, p.held i = some task ∧ task.ticket = t
  ended : ∀ i, p.workers i = .returned → p.stop = true ∧ p.tasks = []

/-- A step that moves threads and no task. -/
structure Keeps (p p' : ThreadPool F n m) : Prop where
  tasks : p'.tasks = p.tasks
  stop : p'.stop = p.stop
  maxTaskSize : p'.maxTaskSize = p.maxTaskSize
  pushed : p'.pushed = p.pushed
  popped : p'.popped = p.popped
  ran : p'.ran = p.ran
  held : ∀ i, p'.held i = p.held i
  returned : ∀ i, p'.workers i = .returned → p.workers i = .returned

variable {p p' : ThreadPool F n m} {taskSize : Nat}

theorem Keeps.setProducer (p : ThreadPool F n m) (i : Fin m) (pc : ProducerPc F) :
    Keeps p (p.setProducer i pc) :=
  ⟨rfl, rfl, rfl, rfl, rfl, rfl, fun _ => rfl, fun _ => id⟩

theorem held_setWorker (p : ThreadPool F n m) (i : Fin n) (pc : WorkerPc F) :
    (p.setWorker i pc).held = Function.update p.held i pc.task? := by
  funext j
  by_cases same : j = i
  · subst same
    simp only [ThreadPool.held, setWorker, Function.update_self]
  · simp only [ThreadPool.held, setWorker, Function.update_of_ne same]

theorem returned_setWorker {i j : Fin n} {pc : WorkerPc F} (workers : p'.workers = p.workers)
    (live : pc ≠ .returned) (ended : (p'.setWorker i pc).workers j = .returned) :
    p.workers j = .returned := by
  by_cases same : j = i
  · subst same
    simp only [setWorker, Function.update_self] at ended
    exact absurd ended live
  · simpa only [setWorker, Function.update_of_ne same, workers] using ended

theorem Keeps.setWorker {i : Fin n} {pc : WorkerPc F} (task : pc.task? = p.held i)
    (returned : pc ≠ .returned) : Keeps p (p.setWorker i pc) := by
  refine ⟨rfl, rfl, rfl, rfl, rfl, rfl, fun j => ?_, fun j => returned_setWorker rfl returned⟩
  rw [held_setWorker, task, Function.update_eq_self]

theorem held_of_waiting {i : Fin n} (waiting : (p.workers i).isWaiting = true) : p.held i = none := by
  rw [ThreadPool.held, WorkerPc.isWaiting_iff.mp waiting]
  rfl

theorem notifyReady_keeps {wakes : Option (Fin n)} (taken : p.notifyReady wakes = some p') :
    Keeps p p' := by
  unfold notifyReady at taken
  split at taken
  · split at taken <;> cases taken
    rename_i waiting
    exact .setWorker (held_of_waiting waiting).symm nofun
  · split at taken <;> cases taken
    exact ⟨rfl, rfl, rfl, rfl, rfl, rfl, fun _ => rfl, fun _ => id⟩

theorem notifyFull_keeps {wakes : Option (Fin m)} (taken : p.notifyFull wakes = some p') :
    Keeps p p' := by
  unfold notifyFull at taken
  split at taken
  · split at taken <;> cases taken
    exact .setProducer ..
  · split at taken <;> cases taken
    exact ⟨rfl, rfl, rfl, rfl, rfl, rfl, fun _ => rfl, fun _ => id⟩

theorem Accounted.keep (h : p.Accounted taskSize) (keeps : Keeps p p') :
    p'.Accounted taskSize where
  size := keeps.maxTaskSize.trans h.size
  bound := by
    rw [keeps.maxTaskSize, keeps.tasks]
    exact h.bound
  order := by
    rw [keeps.popped, keeps.tasks, keeps.pushed]
    exact h.order
  once := keeps.ran ▸ h.once
  ran := by
    rw [keeps.ran, keeps.popped]
    exact h.ran
  held := by
    intro i task holds
    rw [keeps.popped, keeps.ran]
    exact h.held i task (keeps.held i ▸ holds)
  apart := by
    intro i j task task' first second
    exact h.apart i j task task' (keeps.held i ▸ first) (keeps.held j ▸ second)
  popped := by
    intro t popped
    rw [keeps.ran]
    rcases h.popped t (keeps.popped ▸ popped) with ran | ⟨i, task, holds, same⟩
    · exact .inl ran
    · exact .inr ⟨i, task, (keeps.held i).trans holds, same⟩
  ended := by
    intro i ended
    rw [keeps.stop, keeps.tasks]
    exact h.ended i (keeps.returned i ended)

theorem Accounted.push (h : p.Accounted taskSize) (running : p.stop = false)
    (space : 0 < p.maxTaskSize → p.tasks.length < p.maxTaskSize) (task : F) :
    ({ p with tasks := p.tasks ++ [PoolTask.mk p.pushed task], pushed := p.pushed + 1 } :
      ThreadPool F n m).Accounted taskSize where
  size := h.size
  bound := by
    intro bounded
    have less := space bounded
    simp only [List.length_append, List.length_singleton]
    omega
  order := by
    simp only [List.map_append, List.map_cons, List.map_nil, ← List.append_assoc, h.order,
      List.range_succ]
  once := h.once
  ran := h.ran
  held := h.held
  apart := h.apart
  popped := h.popped
  ended := by
    intro i ended
    cases running.symm.trans (h.ended i ended).1

theorem Accounted.not_popped (h : p.Accounted taskSize) {task : PoolTask F} {rest : List (PoolTask F)}
    (queue : p.tasks = task :: rest) : task.ticket ∉ p.popped := by
  have distinct : (p.popped ++ p.tasks.map PoolTask.ticket).Nodup := by
    rw [h.order]
    exact List.nodup_range
  intro popped
  rw [queue] at distinct
  exact (List.nodup_append.mp distinct).2.2 _ popped _ List.mem_cons_self rfl

/-- The first task goes from the queue to a worker. -/
theorem Accounted.pop (h : p.Accounted taskSize) {i : Fin n} {task : PoolTask F}
    (queue : p.tasks = task :: p'.tasks) (free : p.held i = none)
    (popped : p'.popped = p.popped ++ [task.ticket])
    (held : p'.held = Function.update p.held i (some task)) (ran : p'.ran = p.ran)
    (pushed : p'.pushed = p.pushed) (bound : p'.maxTaskSize = p.maxTaskSize)
    (returned : ∀ j, p'.workers j = .returned → p.workers j = .returned) : p'.Accounted taskSize := by
  have fresh := h.not_popped queue
  have holder {j : Fin n} {t : PoolTask F} (holds : p'.held j = some t) :
      j = i ∧ t = task ∨ j ≠ i ∧ p.held j = some t := by
    rw [held] at holds
    by_cases same : j = i
    · subst same
      rw [Function.update_self] at holds
      exact .inl ⟨rfl, (Option.some.inj holds).symm⟩
    · rw [Function.update_of_ne same] at holds
      exact .inr ⟨same, holds⟩
  constructor
  · exact bound.trans h.size
  · intro bounded
    have le := h.bound (bound ▸ bounded)
    rw [queue, List.length_cons] at le
    omega
  · rw [popped, pushed, ← h.order, queue]
    simp
  · rw [ran]
    exact h.once
  · intro t done
    rw [popped]
    exact List.mem_append_left _ (h.ran t (ran ▸ done))
  · intro j t holds
    rw [popped, ran]
    rcases holder holds with ⟨_, rfl⟩ | ⟨_, old⟩
    · exact ⟨List.mem_append_right _ (List.mem_singleton_self _), fun done => fresh (h.ran _ done)⟩
    · exact ⟨List.mem_append_left _ (h.held j t old).1, (h.held j t old).2⟩
  · intro j k t u first second same
    rcases holder first with ⟨rfl, rfl⟩ | ⟨_, old⟩
    · rcases holder second with ⟨rfl, _⟩ | ⟨_, old⟩
      · rfl
      · exact absurd (same ▸ (h.held k u old).1) fresh
    · rcases holder second with ⟨_, rfl⟩ | ⟨_, old'⟩
      · exact absurd (same ▸ (h.held j t old).1) fresh
      · exact h.apart j k t u old old' same
  · intro t member
    rw [popped] at member
    rcases List.mem_append.mp member with old | new
    · rcases h.popped t old with done | ⟨j, u, holds, same⟩
      · exact .inl (ran ▸ done)
      · have other : j ≠ i := by
          rintro rfl
          cases free.symm.trans holds
        exact .inr ⟨j, u, by rw [held, Function.update_of_ne other, holds], same⟩
    · refine .inr ⟨i, task, by rw [held, Function.update_self], ?_⟩
      exact (List.mem_singleton.mp new).symm
  · intro j ended
    have none := (h.ended j (returned j ended)).2
    cases queue.symm.trans none

theorem Accounted.run (h : p.Accounted taskSize) {i : Fin n} {task : PoolTask F}
    (holds : p.held i = some task) (ran : p'.ran = p.ran ++ [task.ticket])
    (held : p'.held = Function.update p.held i none)
    (tasks : p'.tasks = p.tasks) (popped : p'.popped = p.popped) (pushed : p'.pushed = p.pushed)
    (bound : p'.maxTaskSize = p.maxTaskSize) (stop : p'.stop = p.stop)
    (returned : ∀ j, p'.workers j = .returned → p.workers j = .returned) : p'.Accounted taskSize := by
  obtain ⟨taken, fresh⟩ := h.held i task holds
  have holder {j : Fin n} {t : PoolTask F} (holds : p'.held j = some t) :
      j ≠ i ∧ p.held j = some t := by
    rw [held] at holds
    by_cases same : j = i
    · subst same
      rw [Function.update_self] at holds
      cases holds
    · rw [Function.update_of_ne same] at holds
      exact ⟨same, holds⟩
  constructor
  · exact bound.trans h.size
  · rw [bound, tasks]
    exact h.bound
  · rw [popped, tasks, pushed]
    exact h.order
  · rw [ran]
    refine List.nodup_append.mpr ⟨h.once, List.nodup_singleton _, ?_⟩
    rintro t done u new rfl
    exact fresh (List.mem_singleton.mp new ▸ done)
  · intro t done
    rw [ran] at done
    rw [popped]
    rcases List.mem_append.mp done with old | new
    · exact h.ran t old
    · exact List.mem_singleton.mp new ▸ taken
  · intro j t holds'
    obtain ⟨other, old⟩ := holder holds'
    rw [popped, ran]
    refine ⟨(h.held j t old).1, fun done => ?_⟩
    rcases List.mem_append.mp done with done | new
    · exact (h.held j t old).2 done
    · exact other (h.apart j i t task old holds (List.mem_singleton.mp new))
  · intro j k t u first second
    exact h.apart j k t u (holder first).2 (holder second).2
  · intro t member
    rw [popped] at member
    rw [ran]
    rcases h.popped t member with done | ⟨j, u, old, same⟩
    · exact .inl (List.mem_append_left _ done)
    · by_cases here : j = i
      · subst here
        cases holds.symm.trans old
        exact .inl (List.mem_append_right _ (List.mem_singleton.mpr same.symm))
      · exact .inr ⟨j, u, by rw [held, Function.update_of_ne here, old], same⟩
  · intro j ended
    rw [stop, tasks]
    exact h.ended j (returned j ended)

/-- A worker returns when `_stop` is set and nothing is queued. -/
theorem Accounted.finish (h : p.Accounted taskSize) {i : Fin n} (stop : p.stop = true)
    (empty : p.tasks = []) (free : p.held i = none) : (p.setWorker i .returned).Accounted taskSize := by
  have held : (p.setWorker i .returned).held = p.held := by
    have gone : (WorkerPc.returned : WorkerPc F).task? = p.held i := free.symm
    rw [held_setWorker, gone, Function.update_eq_self]
  constructor
  · exact h.size
  · exact h.bound
  · exact h.order
  · exact h.once
  · exact h.ran
  · rw [held]
    exact h.held
  · rw [held]
    exact h.apart
  · rw [held]
    exact h.popped
  · exact fun _ _ => ⟨stop, empty⟩

theorem Accounted.workerLock (h : p.Accounted taskSize) {i : Fin n} {wakes : Option (Fin m)}
    (free : p.held i = none) (taken : p.workerLock i wakes = some p') : p'.Accounted taskSize := by
  unfold ThreadPool.workerLock at taken
  split at taken
  · rename_i none
    split at taken <;> cases taken
    · rename_i stop
      exact h.finish stop none free
    · exact h.keep (.setWorker free.symm nofun)
  · rename_i task rest queue
    have next : ({ p with tasks := rest, popped := p.popped ++ [task.ticket] }.setWorker i
        (.running task)).Accounted taskSize :=
      h.pop queue free rfl (held_setWorker ..) rfl rfl rfl fun _ =>
        returned_setWorker rfl (by simp)
    dsimp only at taken
    split at taken
    · exact next.keep (notifyFull_keeps taken)
    · cases taken
      exact next

theorem Accounted.pushTask (h : p.Accounted taskSize) {i : Fin m} {task : F} {wakes : Option (Fin n)}
    (space : p.stop = false → 0 < p.maxTaskSize → p.tasks.length < p.maxTaskSize)
    (taken : p.push i task wakes = some p') : p'.Accounted taskSize := by
  unfold ThreadPool.push at taken
  split at taken
  · cases taken
    exact h.keep (.setProducer ..)
  · rename_i running
    have running := Bool.eq_false_iff.mpr running
    have next := (h.push running (space running) task).keep (.setProducer _ i .idle)
    exact next.keep (notifyReady_keeps taken)

theorem Accounted.step (h : p.Accounted taskSize) {a : PoolAct F n m} (taken : Steps p a p') :
    p'.Accounted taskSize := by
  unfold Steps ThreadPool.step at taken
  split at taken
  · split at taken
    · unfold ThreadPool.addTask at taken
      split at taken
      · cases taken
        exact h.keep (.setProducer ..)
      · rename_i full
        refine h.pushTask (fun running bounded => ?_) taken
        by_contra no
        exact full ⟨bounded, Nat.not_lt.mp no, by simp [hasSpace, running, no]⟩
    · cases taken
  · split at taken
    · unfold ThreadPool.retest at taken
      split at taken
      · rename_i space
        refine h.pushTask (fun running _ => ?_) taken
        simpa [hasSpace, running] using space
      · cases taken
        exact h.keep (.setProducer ..)
    · cases taken
  · rename_i i wakes
    unfold ThreadPool.workerStep at taken
    split at taken
    · rename_i pc
      exact h.workerLock (by rw [ThreadPool.held, pc]; rfl) taken
    · rename_i pc
      exact h.workerLock (by rw [ThreadPool.held, pc]; rfl) taken
    · rename_i task pc
      cases taken
      have holds : p.held i = some task := by
        rw [ThreadPool.held, pc]
        rfl
      exact h.run holds rfl (held_setWorker ..) rfl rfl rfl rfl rfl fun _ =>
        returned_setWorker rfl (by simp)
    · cases taken
    · cases taken
  · split at taken <;> cases taken
    rename_i waiting
    exact h.keep (.setWorker (held_of_waiting waiting).symm nofun)
  · split at taken <;> cases taken
    exact h.keep (.setProducer ..)
  · cases taken
    exact ⟨h.size, h.bound, h.order, h.once, h.ran, h.held, h.apart, h.popped,
      fun i ended => ⟨rfl, (h.ended i ended).2⟩⟩
  · split at taken <;> cases taken
    refine h.keep ⟨rfl, rfl, rfl, rfl, rfl, rfl, fun i => ?_, fun i ended => ?_⟩
    · cases waits : (p.workers i).isWaiting with
      | true =>
        rw [held_of_waiting waits]
        simp [ThreadPool.held, waits, WorkerPc.task?]
      | false => simp [ThreadPool.held, waits]
    · dsimp only at ended
      split at ended
      · cases ended
      · exact ended

theorem new_accounted (taskSize : Nat) : (new F n m taskSize).Accounted taskSize where
  size := rfl
  bound _ := Nat.zero_le _
  order := rfl
  once := List.nodup_nil
  ran _ done := by cases done
  held _ _ holds := by cases holds
  apart _ _ _ _ holds := by cases holds
  popped _ member := by cases member
  ended _ ended := by cases ended

open Transition

end ThreadPool
end Yamq
