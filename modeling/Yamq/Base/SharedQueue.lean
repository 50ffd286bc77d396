import Yamq.Lib.Transition
import Yamq.Lib.Census
import Mathlib.Logic.Function.Basic

/-! `base/shared_queue.h` with `n` threads that push and `m` that pop. Each section under `m_` is one step.
`push` notifies when it has left the lock, so its `notify_one` is a step of its own. -/
namespace Yamq

inductive PusherPc where
  | idle
  | pushed     -- the item is in the queue, `notify_one` is still to come
deriving DecidableEq, Repr

inductive PopperPc where
  | idle
  | waiting    -- at `data_cond_`
  | woken      -- before it tests `queue_.empty()` again
deriving DecidableEq, Repr

def PusherPc.isPushed : PusherPc → Bool
  | .pushed => true
  | .idle => false

def PopperPc.isWaiting : PopperPc → Bool
  | .waiting => true
  | _ => false

def PopperPc.isWoken : PopperPc → Bool
  | .woken => true
  | _ => false

theorem PopperPc.isWaiting_iff {pc : PopperPc} : pc.isWaiting = true ↔ pc = .waiting := by
  cases pc <;> simp [PopperPc.isWaiting]

structure SharedQueue (T : Type) (n m : Nat) where
  queue : List T := []
  pushers : Fin n → PusherPc := fun _ => .idle
  poppers : Fin m → PopperPc := fun _ => .idle
  /-- what has been pushed, and what each thread has popped, in the order of their turns at the lock -/
  pushed : List T := []
  popped : List (Fin m × T) := []

namespace SharedQueue

open Transition Census

variable {T : Type} {n m : Nat}

def setPusher (q : SharedQueue T n m) (i : Fin n) (pc : PusherPc) : SharedQueue T n m :=
  { q with pushers := Function.update q.pushers i pc }

def setPopper (q : SharedQueue T n m) (j : Fin m) (pc : PopperPc) : SharedQueue T n m :=
  { q with poppers := Function.update q.poppers j pc }

/-- The section of `push` under the lock. -/
def push (q : SharedQueue T n m) (i : Fin n) (item : T) : SharedQueue T n m :=
  { q with queue := q.queue ++ [item], pushed := q.pushed ++ [item] }.setPusher i .pushed

/-- `data_cond_.notify_one()`, with the thread that it wakes, if one waits. -/
def notifyOne (q : SharedQueue T n m) : Option (Fin m) → Option (SharedQueue T n m)
  | some j => if (q.poppers j).isWaiting then some (q.setPopper j .woken) else none
  | none => if ∀ j, (q.poppers j).isWaiting = false then some q else none

/-- The end of a pop that has found the queue not empty. -/
def take (q : SharedQueue T n m) (j : Fin m) (item : T) (rest : List T) : SharedQueue T n m :=
  { q with queue := rest, popped := q.popped ++ [(j, item)] }.setPopper j .idle

def tryAndPop (q : SharedQueue T n m) (j : Fin m) : SharedQueue T n m :=
  match q.queue with
  | [] => q
  | item :: rest => q.take j item rest

/-- One test of the loop in `wait_and_pop`. -/
def waitAndPop (q : SharedQueue T n m) (j : Fin m) : SharedQueue T n m :=
  match q.queue with
  | [] => q.setPopper j .waiting
  | item :: rest => q.take j item rest

inductive QueueAct (T : Type) (n m : Nat) where
  | push (i : Fin n) (item : T)
  | notify (i : Fin n) (wakes : Option (Fin m))
  | tryAndPop (j : Fin m)
  | waitAndPop (j : Fin m)
  | relock (j : Fin m)
  | spurious (j : Fin m)
deriving DecidableEq, Repr

def step (q : SharedQueue T n m) : QueueAct T n m → Option (SharedQueue T n m)
  | .push i item =>
    match q.pushers i with
    | .idle => some (q.push i item)
    | .pushed => none
  | .notify i wakes =>
    match q.pushers i with
    | .idle => none
    | .pushed => (q.setPusher i .idle).notifyOne wakes
  | .tryAndPop j =>
    match q.poppers j with
    | .idle => some (q.tryAndPop j)
    | _ => none
  | .waitAndPop j =>
    match q.poppers j with
    | .idle => some (q.waitAndPop j)
    | _ => none
  | .relock j =>
    match q.poppers j with
    | .woken => some (q.waitAndPop j)
    | _ => none
  | .spurious j =>
    match q.poppers j with
    | .waiting => some (q.setPopper j .woken)
    | _ => none

def Steps (q : SharedQueue T n m) (a : QueueAct T n m) (q' : SharedQueue T n m) : Prop :=
  q.step a = some q'

def new (T : Type) (n m : Nat) : SharedQueue T n m := {}

/-! Who waits, who has been woken and has not looked, and how many notifications are still to come. -/

def waiting (q : SharedQueue T n m) : Nat := count PopperPc.isWaiting q.poppers
def woken (q : SharedQueue T n m) : Nat := count PopperPc.isWoken q.poppers
def pending (q : SharedQueue T n m) : Nat := count PusherPc.isPushed q.pushers

/-- The items are in the order of the pushes; and where a thread waits, there is for each item a
notification to come, or a thread that was woken and is yet to look. -/
structure Sound (q : SharedQueue T n m) : Prop where
  order : q.popped.map Prod.snd ++ q.queue = q.pushed
  counted : 0 < q.waiting → q.queue.length ≤ q.pending + q.woken

variable {q q' : SharedQueue T n m}

theorem setPopper_counts (q : SharedQueue T n m) (j : Fin m) (pc : PopperPc) :
    ((q.setPopper j pc).waiting + (if (q.poppers j).isWaiting then 1 else 0) =
      q.waiting + if pc.isWaiting then 1 else 0) ∧
    ((q.setPopper j pc).woken + (if (q.poppers j).isWoken then 1 else 0) =
      q.woken + if pc.isWoken then 1 else 0) :=
  ⟨count_update .., count_update ..⟩

theorem setPusher_counts (q : SharedQueue T n m) (i : Fin n) (pc : PusherPc) :
    (q.setPusher i pc).pending + (if (q.pushers i).isPushed then 1 else 0) =
      q.pending + if pc.isPushed then 1 else 0 :=
  count_update ..

/-- A step of `notify_one` moves no item, and where a thread still waits it has woken another. -/
theorem notifyOne_counts {wakes : Option (Fin m)} (taken : q.notifyOne wakes = some q') :
    q'.queue = q.queue ∧ q'.pushed = q.pushed ∧ q'.popped = q.popped ∧ q'.pending = q.pending ∧
      q'.waiting ≤ q.waiting ∧ q'.woken ≤ q.woken + 1 ∧
      (0 < q'.waiting → q'.woken = q.woken + 1) := by
  unfold notifyOne at taken
  split at taken
  · rename_i j
    split at taken <;> cases taken
    rename_i waits
    obtain ⟨fewer, more⟩ := setPopper_counts q j .woken
    simp only [PopperPc.isWaiting_iff.mp waits, PopperPc.isWaiting, PopperPc.isWoken,
      Bool.false_eq_true, if_true, if_false] at fewer more
    exact ⟨rfl, rfl, rfl, rfl, by omega, by omega, fun _ => by omega⟩
  · split at taken <;> cases taken
    rename_i nobody
    have none : q.waiting = 0 := (count_zero ..).mpr nobody
    exact ⟨rfl, rfl, rfl, rfl, Nat.le_refl _, Nat.le_succ _, fun some_ => by omega⟩

theorem Sound.take (h : q.Sound) {j : Fin m} {item : T} {rest : List T}
    (queue : q.queue = item :: rest) (awake : (q.poppers j).isWaiting = false) :
    (q.take j item rest).Sound := by
  have order := h.order
  have counted := h.counted
  obtain ⟨waits, leaves⟩ := setPopper_counts q j .idle
  have neither : PopperPc.idle.isWaiting = false ∧ PopperPc.idle.isWoken = false := ⟨rfl, rfl⟩
  simp only [awake, neither, Bool.false_eq_true, if_false] at waits leaves
  rw [queue] at order counted
  constructor
  · simp [SharedQueue.take, setPopper, ← order]
  · intro some_
    have some_ : 0 < (q.setPopper j .idle).waiting := some_
    have enough := counted (by omega)
    change rest.length ≤ q.pending + (q.setPopper j .idle).woken
    rw [List.length_cons] at enough
    split at leaves <;> omega

theorem Sound.waitAndPop (h : q.Sound) {j : Fin m} (awake : (q.poppers j).isWaiting = false) :
    (q.waitAndPop j).Sound := by
  unfold SharedQueue.waitAndPop
  split
  · rename_i empty
    refine ⟨h.order, fun _ => ?_⟩
    have none : (q.setPopper j .waiting).queue = [] := empty
    rw [none]
    exact Nat.zero_le _
  · rename_i item rest queue
    exact h.take queue awake

theorem Sound.step (h : q.Sound) {a : QueueAct T n m} (taken : Steps q a q') : q'.Sound := by
  cases a with
  | push i item =>
    simp only [Steps, SharedQueue.step] at taken
    split at taken <;> cases taken
    rename_i idle
    have more := setPusher_counts q i .pushed
    simp only [idle, PusherPc.isPushed, Bool.false_eq_true, if_true, if_false] at more
    constructor
    · simp [SharedQueue.push, setPusher, ← h.order]
    · intro some_
      have enough := h.counted some_
      have longer : (q.push i item).queue.length = q.queue.length + 1 := List.length_append
      change (q.push i item).queue.length ≤ (q.setPusher i .pushed).pending + q.woken
      omega
  | notify i wakes =>
    simp only [Steps, SharedQueue.step] at taken
    split at taken
    · cases taken
    · rename_i pushed
      have fewer := setPusher_counts q i .idle
      simp only [pushed, PusherPc.isPushed, Bool.false_eq_true, if_true, if_false] at fewer
      obtain ⟨queue, pushes, pops, pending, waits, -, wakes⟩ := notifyOne_counts taken
      constructor
      · rw [queue, pushes, pops]
        exact h.order
      · intro some_
        have waits : q'.waiting ≤ q.waiting := waits
        have wakes : q'.woken = q.woken + 1 := wakes some_
        have queue : q'.queue = q.queue := queue
        have enough := h.counted (by omega)
        rw [queue, pending]
        omega
  | tryAndPop j =>
    simp only [Steps, SharedQueue.step] at taken
    split at taken <;> cases taken
    rename_i idle
    unfold SharedQueue.tryAndPop
    split
    · exact h
    · rename_i item rest queue
      exact h.take queue (by rw [idle]; rfl)
  | waitAndPop j =>
    simp only [Steps, SharedQueue.step] at taken
    split at taken <;> cases taken
    rename_i idle
    exact h.waitAndPop (by rw [idle]; rfl)
  | relock j =>
    simp only [Steps, SharedQueue.step] at taken
    split at taken <;> cases taken
    rename_i woken
    exact h.waitAndPop (by rw [woken]; rfl)
  | spurious j =>
    simp only [Steps, SharedQueue.step] at taken
    split at taken <;> cases taken
    rename_i waits
    obtain ⟨fewer, more⟩ := setPopper_counts q j .woken
    simp only [waits, PopperPc.isWaiting, PopperPc.isWoken, Bool.false_eq_true, if_true,
      if_false] at fewer more
    refine ⟨h.order, fun some_ => ?_⟩
    have enough := h.counted (by omega)
    change q.queue.length ≤ q.pending + (q.setPopper j .woken).woken
    omega

theorem new_sound : (new T n m).Sound where
  order := rfl
  counted some_ := by
    obtain ⟨j, waits⟩ := (count_pos ..).mp some_
    cases waits

theorem sound_of_run (run : Reaches Steps Free (new T n m) q) : q.Sound :=
  run.invariant new_sound fun _ _ _ h _ taken => h.step taken

/-- In every run the items come out in the order in which they went in, each of them once; and while a
thread waits, the items in the queue are no more than the notifications still to come and the threads that
were woken and are yet to look. -/
theorem first_in_first_out (T : Type) (n m : Nat) (q : SharedQueue T n m)
    (run : Reaches Steps Free (new T n m) q) :
    q.popped.map Prod.snd ++ q.queue = q.pushed ∧
    (∀ j, ((q.popped.filter fun pop => pop.1 = j).map Prod.snd).Sublist q.pushed) ∧
    ((∃ j, q.poppers j = .waiting) → q.queue.length ≤ q.pending + q.woken) := by
  have h := sound_of_run run
  refine ⟨h.order, fun j => ?_, fun waits => ?_⟩
  · have part : ((q.popped.filter fun pop => pop.1 = j).map Prod.snd).Sublist (q.popped.map Prod.snd) :=
      List.filter_sublist.map _
    rw [← h.order]
    exact part.trans (List.sublist_append_left ..)
  · obtain ⟨j, waits⟩ := waits
    exact h.counted ((count_pos ..).mpr ⟨j, by rw [waits]; rfl⟩)

/-- Two threads wait, one item is pushed, and a third thread takes it before the first has woken. -/
theorem first_in_first_out_overtaken : ∃ q : SharedQueue Nat 1 3,
    Reaches Steps Free (new Nat 1 3) q ∧ q.poppers 0 = .woken ∧ q.popped = [(2, 7)] ∧
      q.popped.map Prod.snd ++ q.queue = q.pushed := by
  let labels : List (QueueAct Nat 1 3) :=
    [.waitAndPop 0, .waitAndPop 1, .push 0 7, .tryAndPop 2, .notify 0 (some 0)]
  let q := (labels.foldlM step (new Nat 1 3)).getD (new Nat 1 3)
  have run : Reaches Steps Free (new Nat 1 3) q := .of_labels step labels rfl
  exact ⟨q, run, rfl, rfl, (first_in_first_out Nat 1 3 q run).1⟩

/-! What has begun comes to an end: a `push` notifies, and a thread that was woken looks. -/

def QueueAct.finishes : QueueAct T n m → Bool
  | .notify .. => true
  | .relock _ => true
  | _ => false

def rank (q : SharedQueue T n m) : Nat := 2 * q.pending + q.woken

theorem rank_relock {j : Fin m} (woken : q.poppers j = .woken) : (q.waitAndPop j).rank + 1 = q.rank := by
  have gone {pc : PopperPc} (other : pc.isWoken = false) : (q.setPopper j pc).woken + 1 = q.woken := by
    have leaves := (setPopper_counts q j pc).2
    rw [woken, other] at leaves
    exact leaves
  unfold waitAndPop
  split
  · have fewer := @gone .waiting rfl
    change 2 * q.pending + (q.setPopper j .waiting).woken + 1 = 2 * q.pending + q.woken
    omega
  · have fewer := @gone .idle rfl
    change 2 * q.pending + (q.setPopper j .idle).woken + 1 = 2 * q.pending + q.woken
    omega

theorem rank_notify {i : Fin n} {wakes : Option (Fin m)} (pushed : q.pushers i = .pushed)
    (taken : (q.setPusher i .idle).notifyOne wakes = some q') : q'.rank + 1 ≤ q.rank := by
  have fewer := setPusher_counts q i .idle
  simp only [pushed, PusherPc.isPushed, Bool.false_eq_true, if_true, if_false] at fewer
  obtain ⟨-, -, -, pending, -, most, -⟩ := notifyOne_counts taken
  have most : q'.woken ≤ q.woken + 1 := most
  simp only [rank, pending]
  omega

theorem rank_step {a : QueueAct T n m} (finishes : a.finishes = true) (taken : Steps q a q') :
    q'.rank + 1 ≤ q.rank := by
  cases a with
  | push | tryAndPop | waitAndPop | spurious => cases finishes
  | notify i wakes =>
    simp only [Steps, SharedQueue.step] at taken
    split at taken
    · cases taken
    · exact rank_notify ‹_› taken
  | relock j =>
    simp only [Steps, SharedQueue.step] at taken
    split at taken <;> cases taken
    exact Nat.le_of_eq (rank_relock ‹_›)

/-- A state in which no call that has begun can go on by itself. -/
def AtRest (q : SharedQueue T n m) : Prop :=
  ∀ a q', a.finishes = true → ¬ Steps q a q'

theorem atRest_of_rank (none : q.rank = 0) : q.AtRest := by
  intro a q' finishes taken
  have less := rank_step finishes taken
  omega

theorem AtRest.nothing_open (rest : q.AtRest) : q.pending = 0 ∧ q.woken = 0 := by
  constructor
  · refine (count_zero ..).mpr fun i => ?_
    cases pc : q.pushers i with
    | idle => rfl
    | pushed =>
      exfalso
      by_cases waits : ∃ j, (q.poppers j).isWaiting = true
      · obtain ⟨j, waits⟩ := waits
        have same : ((q.setPusher i .idle).poppers j).isWaiting = true := waits
        refine rest (.notify i (some j)) ((q.setPusher i .idle).setPopper j .woken) rfl ?_
        simp only [Steps, SharedQueue.step, pc, notifyOne, same, if_true]
      · have nobody : ∀ j, ((q.setPusher i .idle).poppers j).isWaiting = false :=
          fun j => Bool.eq_false_iff.mpr fun some_ => waits ⟨j, some_⟩
        refine rest (.notify i none) (q.setPusher i .idle) rfl ?_
        simp only [Steps, SharedQueue.step, pc, notifyOne]
        exact if_pos nobody
  · refine (count_zero ..).mpr fun j => ?_
    cases pc : q.poppers j with
    | idle => rfl
    | waiting => rfl
    | woken =>
      exfalso
      refine rest (.relock j) (q.waitAndPop j) rfl ?_
      simp only [Steps, SharedQueue.step, pc]

/-- No wakeup is lost. From every state of every run, the calls that have begun go on for a bounded number
of steps, whatever their order; and where they have come to rest, no thread waits in `wait_and_pop` unless
everything that was pushed has been popped. -/
theorem no_wakeup_lost (T : Type) (n m : Nat) (q q' : SharedQueue T n m)
    (labels : List (QueueAct T n m)) (run : Reaches Steps Free (new T n m) q)
    (further : Runs Steps (fun _ a => a.finishes = true) q labels q') :
    labels.length ≤ 2 * q.pending + q.woken ∧
    (q'.AtRest → (∃ j, q'.poppers j = .waiting) → q'.popped.map Prod.snd = q'.pushed) := by
  constructor
  · have bound := further.countP_le (fun _ => True) (fun _ => true) rank trivial
      (fun _ _ _ _ _ _ => trivial) (fun _ _ _ _ finishes taken => rank_step finishes taken)
    rw [List.countP_true] at bound
    exact Nat.le_of_add_right_le bound
  · intro rest waits
    have whole : Reaches Steps Free (new T n m) q' :=
      run.trans (further.reaches.mono fun _ _ _ => trivial)
    obtain ⟨noPush, noWoken⟩ := rest.nothing_open
    have h := sound_of_run whole
    obtain ⟨j, waits⟩ := waits
    have empty : q'.queue = [] := by
      have none := h.counted ((count_pos ..).mpr ⟨j, by rw [waits]; rfl⟩)
      rw [noPush, noWoken] at none
      exact List.length_eq_zero_iff.mp (Nat.le_zero.mp none)
    have order := h.order
    rwa [empty, List.append_nil] at order

/-- Two threads wait, and one item comes. -/
theorem no_wakeup_lost_one_left : ∃ q : SharedQueue Nat 1 2, q.AtRest ∧ q.poppers 1 = .waiting ∧
    q.pushed = [7] ∧ q.popped.map Prod.snd = q.pushed := by
  let before : List (QueueAct Nat 1 2) := [.waitAndPop 0, .waitAndPop 1, .push 0 7]
  let p := (before.foldlM step (new Nat 1 2)).getD (new Nat 1 2)
  have run : Reaches Steps Free (new Nat 1 2) p := .of_labels step before rfl
  let woken := (p.setPusher 0 .idle).setPopper 0 .woken
  let q := woken.take 0 7 []
  have notifies : Steps p (.notify 0 (some 0)) woken := rfl
  have pops : Steps woken (.relock 0) q := rfl
  have first : Runs Steps (fun _ a => a.finishes = true) p [.notify 0 (some 0)] woken :=
    .step .start rfl notifies
  have further : Runs Steps (fun _ a => a.finishes = true) p [.notify 0 (some 0), .relock 0] q :=
    .step first rfl pops
  have rest : q.AtRest := atRest_of_rank (by decide)
  exact ⟨q, rest, rfl, rfl, (no_wakeup_lost Nat 1 2 p q _ run further).2 rest ⟨1, rfl⟩⟩

end SharedQueue
end Yamq
