import Yamq.Tcp.ServerMulti
import Yamq.Lib.Ownership
import Mathlib.Logic.Function.Basic

/-! The threads of `multi::Server`: how `Start` gets a loop from each worker, and how the destructor of
a worker stops it. A turn of a loop that finds `_stop` unset changes nothing here and is no step. -/
namespace Yamq

open Ownership

/-- Where a worker's thread stands in `IoWorker::threadFunc`. -/
inductive IoPc where
  | unborn    -- the worker is not constructed
  | begun
  | stored    -- behind `_evd = new EventDispatcher()`
  | looping   -- behind `_running = true`
  | left      -- behind `_evd->Start()`
  | deleted   -- behind `delete _evd`
  | returned
deriving DecidableEq, Repr

/-- How many steps a worker has left, if it is stopped in the end. -/
def IoPc.rank : IoPc → Nat
  | .unborn => 6
  | .begun => 5
  | .stored => 4
  | .looping => 3
  | .left => 2
  | .deleted => 1
  | .returned => 0

/-- A pointer to a dispatcher; `unset` before the first assignment. -/
inductive EvdPtr where
  | unset
  | null
  | at (addr : Nat)
deriving DecidableEq, Repr

/-- The address in a pointer. A NULL that comes into `_evds` counts as followed at once. -/
def EvdPtr.addr : EvdPtr → Except Fault Nat
  | .unset => .error .wildPointer
  | .null => .error .nullPointer
  | .at p => .ok p

structure IoWorker where
  evd : EvdPtr := .unset
  running : Bool := false
  pc : IoPc := .unborn
deriving DecidableEq, Repr

/-- The dispatcher that the thread has made and not deleted. -/
def IoWorker.own (w : IoWorker) : Option Nat :=
  match w.pc, w.evd with
  | .stored, .at p => some p
  | .looping, .at p => some p
  | .left, .at p => some p
  | _, _ => none

/-- Where the thread of the server stands, and for which worker. -/
inductive MainPc where
  | constructing (i : Nat)       -- the loop of `Start`
  | spinning (i : Nat)           -- `GetEvd`, in its loop
  | reading (i : Nat)            -- `GetEvd`, behind it
  | listening
  | serving                      -- `_evd->Start()`
  | destroying (i : Nat)         -- `~IoWorker`
  | waking (i : Nat) (evd : Nat) -- `Stop`, behind `_stop = true`
  | joining (i : Nat)            -- `_active->Join()`
  | done
deriving DecidableEq, Repr

/-- The server and its `n` workers. A dispatcher is its `_stop`. -/
structure MultiServer (n : Nat) where
  main : MainPc
  workers : Nat → IoWorker
  heap : Heap Bool
  dispatchers : Dispatchers
  running : Bool
  /-- the `_evd` of each connection, in the order of `newConnect` -/
  connections : List Nat

/-- Where a step calls `Wakeup`, `wrote` says whether the `write` to `_wakeup_fds[0]`, which nothing sets,
takes its 8 bytes. `calling` is what `RunInEvd` reads in `_calling_pending_functor`. -/
inductive ServerAct where
  | main (wrote : Bool)
  | worker (k : Nat) (wrote : Bool)
  | newConnect (calling wrote : Bool)
  | destroy           -- the loop of the server has returned, and `~Server` begins
deriving DecidableEq, Repr

def ServerAct.isNewConnect : ServerAct → Bool
  | .newConnect _ _ => true
  | _ => false

namespace MultiServer

variable {n : Nat}

/-- The main loop is the first dispatcher. -/
def new (n : Nat) : MultiServer n where
  main := .constructing 0
  workers _ := {}
  heap := Heap.empty.alloc false
  dispatchers := ⟨0, [], 0⟩
  running := false
  connections := []

/-- What a pointer to a dispatcher leads to. -/
def follow (s : MultiServer n) (evd : EvdPtr) : Except Fault (Nat × Bool) := do
  let p ← evd.addr
  match s.heap.cells p with
  | none => .error .useAfterFree
  | some stop => .ok (p, stop)

def setWorker (s : MultiServer n) (k : Nat) (w : IoWorker) : MultiServer n :=
  { s with workers := Function.update s.workers k w }

/-- `EventDispatcher::Wakeup`, with its `LOG(FATAL)`. -/
def wakeup (s : MultiServer n) (evd : EvdPtr) (wrote : Bool) : Except Fault Nat := do
  let (p, _) ← s.follow evd
  if wrote then return p else .error .abort

/-- `IoWorker::threadFunc`. The destructor of the dispatcher calls `Stop`. -/
def workerStep (s : MultiServer n) (k : Nat) (wrote : Bool) : Option (Except Fault (MultiServer n)) :=
  let w := s.workers k
  match w.pc with
  | .unborn => none
  | .begun => some (.ok ({ s with heap := s.heap.alloc false }.setWorker k
      { w with evd := .at s.heap.fresh, pc := .stored }))
  | .stored => some (.ok (s.setWorker k { w with running := true, pc := .looping }))
  | .looping =>
    match s.follow w.evd with
    | .error f => some (.error f)
    | .ok (_, stop) => if stop then some (.ok (s.setWorker k { w with pc := .left })) else none
  | .left => some do
    let p ← s.wakeup w.evd wrote
    return { s with heap := s.heap.free p }.setWorker k { w with pc := .deleted }
  | .deleted => some (.ok (s.setWorker k { w with evd := .null, pc := .returned }))
  | .returned => none

/-- `Server::Start` behind its assertion, then the destructors of the workers, from the first to the last. -/
def mainStep (s : MultiServer n) (wrote : Bool) : Option (Except Fault (MultiServer n)) :=
  match s.main with
  | .constructing i =>
    if i < n then some (.ok { s.setWorker i { pc := .begun } with main := .spinning i })
    else some (.ok { s with main := .listening })
  | .spinning i => if (s.workers i).running then some (.ok { s with main := .reading i }) else none
  | .reading i => some do
    let p ← (s.workers i).evd.addr
    return { s with
      dispatchers := { s.dispatchers with evds := s.dispatchers.evds ++ [p] }
      main := .constructing (i + 1) }
  | .listening => some (.ok { s with running := true, main := .serving })
  | .serving => none
  | .destroying i =>
    if i < n then
      if (s.workers i).running then some do
        let (p, _) ← s.follow (s.workers i).evd
        return { s with heap := s.heap.write p true, main := .waking i p }
      else some (.error .assertion)
    else some (.ok { s with main := .done })
  | .waking i p => some do
    let _ ← s.wakeup (.at p) wrote
    return { s with main := .joining i }
  | .joining i =>
    if (s.workers i).pc = .returned then some (.ok { s with main := .destroying (i + 1) }) else none
  | .done => none

/-- `RunInEvd` on the thread of the server. Only its own loop runs the functor at once. -/
def runInEvd (s : MultiServer n) (evd : Nat) (calling wrote : Bool) : Except Fault Unit := do
  let _ ← s.follow (.at evd)
  if evd ≠ s.dispatchers.evd ∧ calling then do
    let _ ← s.wakeup (.at evd) wrote

/-- `Server::newConnect`: the loop is picked, and told to call `establish`. -/
def newConnect (s : MultiServer n) (calling wrote : Bool) : Except Fault (MultiServer n) :=
  if s.running then do
    let (evd, dispatchers) ← s.dispatchers.nextEvd
    s.runInEvd evd calling wrote
    return { s with dispatchers := dispatchers, connections := s.connections ++ [evd] }
  else .error .assertion

def step (s : MultiServer n) : ServerAct → Option (Except Fault (MultiServer n))
  | .main wrote => s.mainStep wrote
  | .worker k wrote => s.workerStep k wrote
  | .newConnect calling wrote => if s.main = .serving then some (s.newConnect calling wrote) else none
  | .destroy => if s.main = .serving then some (.ok { s with main := .destroying 0 }) else none

def Steps (s : MultiServer n) (a : ServerAct) (s' : MultiServer n) : Prop := s.step a = some (.ok s')

/-- The dispatcher of each thread, with `none` for the thread of the server. -/
def own (s : MultiServer n) : Option Nat → Option Nat
  | none => some s.dispatchers.evd
  | some k => (s.workers k).own

/-- The `_stop` of each thread's dispatcher. -/
def stops (s : MultiServer n) : Option Nat → Option Bool := view s.heap s.own

/-- What becomes of a worker. -/
inductive Stage where
  | idle
  | starting
  | ready
  | waking (evd : Nat)
  | joining
  | gone

def stage (n : Nat) (main : MainPc) (k : Nat) : Stage :=
  match main with
  | .constructing i => if k < i then .ready else .idle
  | .spinning i => if k < i then .ready else if k = i then .starting else .idle
  | .reading i => if k ≤ i then .ready else .idle
  | .listening => if k < n then .ready else .idle
  | .serving => if k < n then .ready else .idle
  | .destroying i => if k < i then .gone else if k < n then .ready else .idle
  | .waking i p => if k < i then .gone else if k = i then .waking p else if k < n then .ready else .idle
  | .joining i => if k < i then .gone else if k = i then .joining else if k < n then .ready else .idle
  | .done => if k < n then .gone else .idle

/-- A worker with the `_stop` of the loop that it runs. -/
inductive Starting : IoWorker → Option Bool → Prop where
  | begun : Starting ⟨.unset, false, .begun⟩ none
  | stored (p : Nat) : Starting ⟨.at p, false, .stored⟩ (some false)
  | looping (p : Nat) : Starting ⟨.at p, true, .looping⟩ (some false)

/-- The same behind `_stop = true`; the dispatcher was at `p`. -/
inductive Ending (heap : Heap Bool) (p : Nat) : IoWorker → Option Bool → Prop where
  | looping : Ending heap p ⟨.at p, true, .looping⟩ (some true)
  | left : Ending heap p ⟨.at p, true, .left⟩ (some true)
  | deleted (dead : heap.cells p = none) : Ending heap p ⟨.at p, true, .deleted⟩ none
  | returned (dead : heap.cells p = none) : Ending heap p ⟨.null, true, .returned⟩ none

def InStage (heap : Heap Bool) (w : IoWorker) (seen : Option Bool) : Stage → Prop
  | .idle => w = {}
  | .starting => Starting w seen
  | .ready => ∃ p, w = ⟨.at p, true, .looping⟩ ∧ seen = some false
  | .waking p => Ending heap p w seen
  | .joining => ∃ p, Ending heap p w seen
  | .gone => w = ⟨.null, true, .returned⟩

/-- How many loops `_evds` has. -/
def filled (n : Nat) : MainPc → Nat
  | .constructing i => i
  | .spinning i => i
  | .reading i => i
  | _ => n

/-- The stages of the workers at which the server does not stand. -/
def Stage.isQuiet : Stage → Bool
  | .idle => true
  | .ready => true
  | .gone => true
  | _ => false

/-- The worker at which the server stands is one of its `n`. -/
def Within (n : Nat) : MainPc → Prop
  | .constructing i => i ≤ n
  | .spinning i => i < n
  | .reading i => i < n
  | .destroying i => i ≤ n
  | .waking i _ => i < n
  | .joining i => i < n
  | _ => True

/-- What holds between any two steps of the threads. -/
structure Sound (s : MultiServer n) : Prop where
  owned : Owned s.heap s.own
  server : s.stops none = some false
  stages : ∀ k, InStage s.heap (s.workers k) (s.stops (some k)) (stage n s.main k)
  within : Within n s.main
  length : s.dispatchers.evds.length = filled n s.main
  named : ∀ k p, s.dispatchers.evds[k]? = some p → stage n s.main k = .ready → (s.workers k).evd = .at p
  running : s.main = .serving → s.running = true

variable {s s' : MultiServer n} {k : Nat} {main : MainPc} {heap : Heap Bool} {w : IoWorker}
  {seen : Option Bool}

theorem stage_quiet (active : (stage n main k).isQuiet = false) {j : Nat} (other : j ≠ k) :
    (stage n main j).isQuiet = true := by
  cases main <;> simp only [stage] at active ⊢ <;> split_ifs at active ⊢ <;>
    first | rfl | omega | cases active

theorem InStage.quiet {stage : Stage} (h : InStage heap w seen stage) (quiet : stage.isQuiet = true)
    (heap' : Heap Bool) : InStage heap' w seen stage := by
  cases stage <;> first | exact h | cases quiet

theorem own_setWorker (s : MultiServer n) (k : Nat) (w : IoWorker) :
    (s.setWorker k w).own = Function.update s.own (some k) w.own := by
  funext j
  cases j with
  | none => exact (Function.update_of_ne (by simp) ..).symm
  | some j =>
    by_cases same : j = k
    · subst same
      simp [own, setWorker]
    · have other : some j ≠ some k := fun eq => same (Option.some.inj eq)
      rw [Function.update_of_ne other]
      simp [own, setWorker, Function.update_of_ne same]

/-- A step of the worker at which the server stands. -/
theorem Sound.setWorker (h : Sound s) (active : (stage n s.main k).isQuiet = false)
    (owned : Owned heap (Function.update s.own (some k) w.own))
    (sees : view heap (Function.update s.own (some k) w.own) = Function.update s.stops (some k) seen)
    (here : InStage heap w seen (stage n s.main k)) :
    Sound (({ s with heap := heap } : MultiServer n).setWorker k w) := by
  have own : (({ s with heap := heap } : MultiServer n).setWorker k w).own =
      Function.update s.own (some k) w.own :=
    own_setWorker { s with heap := heap } k w
  have stops : (({ s with heap := heap } : MultiServer n).setWorker k w).stops =
      Function.update s.stops (some k) seen := by
    rw [MultiServer.stops, own]
    exact sees
  refine ⟨?_, ?_, fun j => ?_, h.within, h.length, fun j p at_ ready => ?_, h.running⟩
  · rw [own]
    exact owned
  · rw [stops, Function.update_of_ne (by simp)]
    exact h.server
  · change InStage heap (Function.update s.workers k w j) _ _
    by_cases same : j = k
    · subst same
      rw [stops, Function.update_self, Function.update_self]
      exact here
    · have other : some j ≠ some k := fun eq => same (Option.some.inj eq)
      rw [stops, Function.update_of_ne same, Function.update_of_ne other]
      exact (h.stages j).quiet (stage_quiet active same) heap
  · have other : j ≠ k := by
      rintro rfl
      have ready' : stage n s.main j = .ready := ready
      rw [ready'] at active
      cases active
    change (Function.update s.workers k w j).evd = _
    rw [Function.update_of_ne other]
    exact h.named j p at_ ready

/-- The same where the worker keeps its dispatcher. -/
theorem Sound.keepOwn (h : Sound s) (active : (stage n s.main k).isQuiet = false)
    (same : w.own = s.own (some k)) (here : InStage s.heap w (s.stops (some k)) (stage n s.main k)) :
    Sound (s.setWorker k w) := by
  have owned : Owned s.heap (Function.update s.own (some k) w.own) := by
    rw [same, Function.update_eq_self]
    exact h.owned
  have sees : view s.heap (Function.update s.own (some k) w.own) =
      Function.update s.stops (some k) (s.stops (some k)) := by
    rw [same, Function.update_eq_self, Function.update_eq_self]
    rfl
  exact h.setWorker active owned sees here

theorem stops_at {p : Nat} (at_ : s.own (some k) = some p) : s.stops (some k) = s.heap.cells p :=
  view_at at_

theorem follow_at {p : Nat} {stop : Bool} (found : s.heap.cells p = some stop) :
    s.follow (.at p) = .ok (p, stop) := by
  simp only [follow, EvdPtr.addr, ok_bind, found]

theorem wakeup_at {p : Nat} {stop : Bool} (found : s.heap.cells p = some stop) :
    s.wakeup (.at p) true = .ok p := by
  simp only [wakeup, follow_at found, ok_bind, if_true, pure_ok]

theorem follow_dead {p : Nat} (dead : s.heap.cells p = none) :
    s.follow (.at p) = .error .useAfterFree := by
  simp only [follow, EvdPtr.addr, ok_bind, dead]

/-- No connection has come in between. -/
structure Calm (s s' : MultiServer n) : Prop where
  connections : s'.connections = s.connections
  index : s'.dispatchers.nextEvdId = s.dispatchers.nextEvdId
  evd : s'.dispatchers.evd = s.dispatchers.evd
  evds : s.dispatchers.evds <+: s'.dispatchers.evds

theorem Calm.same (connections : s'.connections = s.connections)
    (dispatchers : s'.dispatchers = s.dispatchers) : Calm s s' :=
  ⟨connections, by rw [dispatchers], by rw [dispatchers], by simp [dispatchers]⟩

/-- A step of worker `k` and what it leaves. -/
structure WorkerMoves (s : MultiServer n) (k : Nat) (s' : MultiServer n) : Prop where
  taken : s.workerStep k true = some (.ok s')
  calm : Calm s s'
  sound : Sound s'
  main : s'.main = s.main
  rank : (s'.workers k).pc.rank + 1 = (s.workers k).pc.rank

theorem setWorker_pc (s : MultiServer n) (k : Nat) (w : IoWorker) :
    ((s.setWorker k w).workers k).pc = w.pc := by
  simp [setWorker]

/-- A step that leaves `w` of the worker. -/
theorem Sound.moves (h : Sound s) (active : (stage n s.main k).isQuiet = false)
    (taken : s.workerStep k true = some (.ok (({ s with heap := heap } : MultiServer n).setWorker k w)))
    (owned : Owned heap (Function.update s.own (some k) w.own))
    (sees : view heap (Function.update s.own (some k) w.own) = Function.update s.stops (some k) seen)
    (here : InStage heap w seen (stage n s.main k)) (rank : w.pc.rank + 1 = (s.workers k).pc.rank) :
    ∃ s', WorkerMoves s k s' := by
  refine ⟨_, taken, .same rfl rfl, h.setWorker active owned sees here, rfl, ?_⟩
  rw [setWorker_pc]
  exact rank

theorem Sound.starts (h : Sound s) (here : stage n s.main k = .starting) :
    (s.workerStep k true = none ∧ (s.workers k).running = true ∧ (s.workers k).pc = .looping) ∨
      ∃ s', WorkerMoves s k s' := by
  have active : (stage n s.main k).isQuiet = false := by rw [here]; rfl
  have stands := h.stages k
  rw [here] at stands
  generalize ew : s.workers k = w at stands
  generalize es : s.stops (some k) = seen at stands
  cases stands with
  | begun =>
    have null : s.own (some k) = none := by simp [own, ew, IoWorker.own]
    have taken : s.workerStep k true = some (.ok (({ s with heap := s.heap.alloc false } :
        MultiServer n).setWorker k ⟨.at s.heap.fresh, false, .stored⟩)) := by
      simp only [workerStep, ew]
    obtain ⟨owned, sees⟩ := h.owned.alloc null false
    refine .inr (h.moves active taken owned sees ?_ (by rw [ew]; rfl))
    rw [here]
    exact Starting.stored _
  | stored p =>
    have at_ : s.own (some k) = some p := by simp [own, ew, IoWorker.own]
    have taken : s.workerStep k true = some (.ok (s.setWorker k ⟨.at p, true, .looping⟩)) := by
      simp only [workerStep, ew]
    refine .inr ⟨_, taken, .same rfl rfl, h.keepOwn active at_.symm ?_, rfl,
      by rw [setWorker_pc, ew]; rfl⟩
    rw [here, es]
    exact Starting.looping p
  | looping p =>
    have at_ : s.own (some k) = some p := by simp [own, ew, IoWorker.own]
    have found := (stops_at at_).symm.trans es
    refine .inl ⟨?_, rfl, rfl⟩
    simp [workerStep, ew, follow_at found]

theorem Sound.ends (h : Sound s) {p : Nat} (active : (stage n s.main k).isQuiet = false)
    (wide : ∀ heap w seen, Ending heap p w seen → InStage heap w seen (stage n s.main k))
    (stands : Ending s.heap p (s.workers k) (s.stops (some k))) :
    (s.workerStep k true = none ∧ (s.workers k).pc = .returned) ∨ ∃ s', WorkerMoves s k s' := by
  generalize ew : s.workers k = w at stands
  generalize es : s.stops (some k) = seen at stands
  cases stands with
  | looping =>
    have at_ : s.own (some k) = some p := by simp [own, ew, IoWorker.own]
    have found := (stops_at at_).symm.trans es
    have taken : s.workerStep k true = some (.ok (s.setWorker k ⟨.at p, true, .left⟩)) := by
      simp only [workerStep, ew, follow_at found, if_true]
    refine .inr ⟨_, taken, .same rfl rfl, h.keepOwn active at_.symm (wide _ _ _ ?_), rfl,
      by rw [setWorker_pc, ew]; rfl⟩
    rw [es]
    exact .left
  | left =>
    have at_ : s.own (some k) = some p := by simp [own, ew, IoWorker.own]
    have found := (stops_at at_).symm.trans es
    have taken : s.workerStep k true = some (.ok (({ s with heap := s.heap.free p } :
        MultiServer n).setWorker k ⟨.at p, true, .deleted⟩)) := by
      simp only [workerStep, ew, wakeup_at found, ok_bind, pure_ok]
    obtain ⟨owned, sees⟩ := h.owned.free at_
    refine .inr (h.moves active taken owned sees (wide _ _ _ (.deleted ?_)) (by rw [ew]; rfl))
    exact Function.update_self ..
  | deleted dead =>
    have null : s.own (some k) = none := by simp [own, ew, IoWorker.own]
    have taken : s.workerStep k true = some (.ok (s.setWorker k ⟨.null, true, .returned⟩)) := by
      simp only [workerStep, ew]
    refine .inr ⟨_, taken, .same rfl rfl, h.keepOwn active null.symm (wide _ _ _ ?_), rfl,
      by rw [setWorker_pc, ew]; rfl⟩
    rw [es]
    exact .returned dead
  | returned dead => exact .inl ⟨by simp only [workerStep, ew], rfl⟩

theorem Sound.wakes (h : Sound s) {p : Nat} (here : stage n s.main k = .waking p) :
    (s.workerStep k true = none ∧ (s.workers k).pc = .returned) ∨ ∃ s', WorkerMoves s k s' := by
  have stands := h.stages k
  rw [here] at stands
  exact h.ends (by rw [here]; rfl) (fun _ _ _ e => by rw [here]; exact e) stands

theorem Sound.joins (h : Sound s) (here : stage n s.main k = .joining) :
    (s.workerStep k true = none ∧ (s.workers k).pc = .returned) ∨ ∃ s', WorkerMoves s k s' := by
  have stands := h.stages k
  rw [here] at stands
  obtain ⟨p, stands⟩ := stands
  exact h.ends (by rw [here]; rfl) (fun _ _ _ e => by rw [here]; exact ⟨p, e⟩) stands

/-- A ready worker runs a loop that is alive. -/
theorem Sound.ready (h : Sound s) (here : stage n s.main k = .ready) :
    ∃ p, s.workers k = ⟨.at p, true, .looping⟩ ∧ s.own (some k) = some p ∧
      s.heap.cells p = some false := by
  have stands := h.stages k
  rw [here] at stands
  obtain ⟨p, ew, es⟩ := stands
  have at_ : s.own (some k) = some p := by simp [own, ew, IoWorker.own]
  exact ⟨p, ew, at_, (stops_at at_).symm.trans es⟩

theorem Sound.rests (h : Sound s) (quiet : (stage n s.main k).isQuiet = true) :
    s.workerStep k true = none := by
  have stands := h.stages k
  cases here : stage n s.main k with
  | idle =>
    rw [here] at stands
    have ew : s.workers k = {} := stands
    simp only [workerStep, ew]
  | ready =>
    obtain ⟨p, ew, -, found⟩ := h.ready here
    simp [workerStep, ew, follow_at found]
  | gone =>
    rw [here] at stands
    have ew : s.workers k = ⟨.null, true, .returned⟩ := stands
    simp only [workerStep, ew]
  | starting =>
    rw [here] at quiet
    cases quiet
  | waking p =>
    rw [here] at quiet
    cases quiet
  | joining =>
    rw [here] at quiet
    cases quiet

/-! The thread of the server. -/

/-- How many steps are left until the server is done, where those of `newConnect` do not count. -/
def rank (s : MultiServer n) : Nat :=
  match s.main with
  | .constructing i => 6 * n + 5 * (n - i) + 4
  | .spinning i => 6 * n + 5 * (n - (i + 1)) + 3 + (s.workers i).pc.rank
  | .reading i => 6 * n + 5 * (n - (i + 1)) + 5
  | .listening => 6 * n + 3
  | .serving => 6 * n + 2
  | .destroying i => 6 * (n - i) + 1
  | .waking i _ => 6 * (n - (i + 1)) + 3 + (s.workers i).pc.rank
  | .joining i => 6 * (n - (i + 1)) + 2 + (s.workers i).pc.rank
  | .done => 0

/-- A step of the server and what it leaves. -/
structure MainMoves (s s' : MultiServer n) : Prop where
  taken : s.mainStep true = some (.ok s')
  calm : Calm s s'
  woken : ∀ i p, s'.main = .waking i p → (s'.workers i).pc = .looping
  sound : Sound s'
  rank : s'.rank + 1 = s.rank

/-- The server goes on, and the dispatchers stay what they are. -/
theorem Sound.onward (h : Sound s) {t : MultiServer n} (heap : t.heap = s.heap) (own : t.own = s.own)
    (stages : ∀ j, InStage s.heap (t.workers j) (s.stops (some j)) (stage n t.main j))
    (within : Within n t.main) (length : t.dispatchers.evds.length = filled n t.main)
    (named : ∀ j p, t.dispatchers.evds[j]? = some p → stage n t.main j = .ready →
      (t.workers j).evd = .at p) (running : t.main = .serving → t.running = true) : Sound t := by
  have stops : t.stops = s.stops := by rw [MultiServer.stops, heap, own, MultiServer.stops]
  refine ⟨?_, ?_, fun j => ?_, within, length, named, running⟩
  · rw [heap, own]
    exact h.owned
  · rw [stops]
    exact h.server
  · rw [heap, stops]
    exact stages j

/-- The same where no worker changes. -/
theorem Sound.turn (h : Sound s) {running : Bool} (within : Within n main)
    (stages : ∀ j, InStage s.heap (s.workers j) (s.stops (some j)) (stage n main j))
    (length : filled n s.main = filled n main)
    (ready : ∀ j < s.dispatchers.evds.length, stage n main j = .ready → stage n s.main j = .ready)
    (serves : main = .serving → running = true) :
    Sound ({ s with main := main, running := running } : MultiServer n) := by
  refine h.onward rfl rfl stages within (h.length.trans length) (fun j p found now => ?_) serves
  exact h.named j p found (ready j (List.getElem?_eq_some_iff.mp found).1 now)

variable {i : Nat}

theorem main_constructing (h : Sound s) (at_ : s.main = .constructing i) : ∃ s', MainMoves s s' := by
  have within := h.within
  have length := h.length
  have stages := h.stages
  have named := h.named
  rw [at_] at within length stages named
  by_cases more : i < n
  · have taken : s.mainStep true =
        some (.ok { s.setWorker i { pc := .begun } with main := .spinning i }) := by
      simp only [mainStep, at_, if_pos more]
    have fresh : s.workers i = {} := by
      have stands := stages i
      rw [stage, if_neg (Nat.lt_irrefl i)] at stands
      exact stands
    have null : s.own (some i) = none := by simp [own, fresh, IoWorker.own]
    have own : (s.setWorker i { pc := .begun }).own = s.own := by
      have kept : Function.update s.own (some i) none = s.own := by
        rw [← null, Function.update_eq_self]
      rw [own_setWorker]
      exact kept
    have others (j : Nat) (other : j ≠ i) : (s.setWorker i { pc := .begun }).workers j = s.workers j :=
      Function.update_of_ne other ..
    have here : (s.setWorker i { pc := .begun }).workers i = ⟨.unset, false, .begun⟩ :=
      Function.update_self ..
    refine ⟨_, taken, .same rfl rfl, nofun,
      h.onward rfl own (fun j => ?_) more length (fun j p found now => ?_) nofun, ?_⟩
    · change InStage s.heap ((s.setWorker i { pc := .begun }).workers j) _ (stage n (.spinning i) j)
      by_cases same : j = i
      · subst same
        rw [here, stage, if_neg (Nat.lt_irrefl j), if_pos rfl, stops, view_null null]
        exact .begun
      · have stands := stages j
        rw [others j same, stage, if_neg same]
        exact stands
    · have low : j < i := by
        have inside := (List.getElem?_eq_some_iff.mp found).1
        change j < s.dispatchers.evds.length at inside
        rwa [length] at inside
      change ((s.setWorker i { pc := .begun }).workers j).evd = _
      rw [others j (Nat.ne_of_lt low)]
      exact named j p found (if_pos low)
    · change 6 * n + 5 * (n - (i + 1)) + 3 + ((s.setWorker i { pc := .begun }).workers i).pc.rank + 1 =
        s.rank
      rw [here, rank, at_]
      change 6 * n + 5 * (n - (i + 1)) + 3 + 5 + 1 = 6 * n + 5 * (n - i) + 4
      omega
  · have taken : s.mainStep true = some (.ok { s with main := .listening }) := by
      simp only [mainStep, at_, if_neg more]
    obtain rfl : i = n := Nat.le_antisymm within (Nat.not_lt.mp more)
    refine ⟨_, taken, .same rfl rfl, nofun, h.turn trivial stages ?_ (fun j _ now => ?_) nofun, ?_⟩
    · rw [at_]
      rfl
    · rw [at_]
      exact now
    · simp [rank, at_]

theorem main_spinning (h : Sound s) (at_ : s.main = .spinning i) :
    (s.mainStep true = none ∧ (s.workers i).running = false) ∨ ∃ s', MainMoves s s' := by
  have within := h.within
  have stages := h.stages
  rw [at_] at within stages
  cases run : (s.workers i).running with
  | false => exact .inl ⟨by simp only [mainStep, at_, run, Bool.false_eq_true, if_false], rfl⟩
  | true =>
    have taken : s.mainStep true = some (.ok { s with main := .reading i }) := by
      simp only [mainStep, at_, run, if_true]
    have starting : Starting (s.workers i) (s.stops (some i)) := by
      have stands := stages i
      rw [stage, if_neg (Nat.lt_irrefl i), if_pos rfl] at stands
      exact stands
    generalize ew : s.workers i = w at starting run
    generalize es : s.stops (some i) = seen at starting
    cases starting with
    | begun => cases run
    | stored p => cases run
    | looping p =>
      refine .inr ⟨_, taken, .same rfl rfl, nofun,
        h.turn within (fun j => ?_) ?_ (fun j inside now => ?_) nofun, ?_⟩
      · have stands := stages j
        simp only [stage] at stands ⊢
        by_cases same : j = i
        · subst same
          rw [if_pos (Nat.le_refl j)]
          exact ⟨p, ew, es⟩
        · by_cases low : j < i
          · rw [if_pos low] at stands
            rwa [if_pos (Nat.le_of_lt low)]
          · rw [if_neg low, if_neg same] at stands
            rwa [if_neg (by omega)]
      · rw [at_]
        rfl
      · have low : j < i := by
          rwa [h.length, at_] at inside
        rw [at_]
        exact if_pos low
      · change 6 * n + 5 * (n - (i + 1)) + 5 + 1 = s.rank
        simp only [rank, at_, ew, IoPc.rank]

theorem main_reading (h : Sound s) (at_ : s.main = .reading i) : ∃ s', MainMoves s s' := by
  have within := h.within
  have length := h.length
  have stages := h.stages
  have named := h.named
  rw [at_] at within length stages named
  have filled : s.dispatchers.evds.length = i := length
  have here : stage n s.main i = .ready := by
    rw [at_]
    exact if_pos (Nat.le_refl i)
  obtain ⟨p, ew, -⟩ := h.ready here
  have taken : s.mainStep true = some (.ok { s with
      dispatchers := { s.dispatchers with evds := s.dispatchers.evds ++ [p] }
      main := .constructing (i + 1) }) := by
    simp only [mainStep, at_, ew, EvdPtr.addr, ok_bind, pure_ok]
  refine ⟨_, taken, ⟨rfl, rfl, rfl, List.prefix_append ..⟩, nofun,
    h.onward rfl rfl (fun j => ?_) within ?_ (fun j q found now => ?_) nofun, ?_⟩
  · have stands := stages j
    simp only [stage, Nat.lt_succ_iff] at stands ⊢
    exact stands
  · simp [filled, MultiServer.filled]
  · change (s.dispatchers.evds ++ [p])[j]? = some q at found
    change (s.workers j).evd = _
    by_cases low : j < i
    · rw [List.getElem?_append_left (by rwa [filled])] at found
      exact named j q found (if_pos (Nat.le_of_lt low))
    · rw [List.getElem?_append_right (by rw [filled]; exact Nat.not_lt.mp low), filled] at found
      obtain ⟨zero, rfl⟩ : j - i = 0 ∧ p = q := by
        rcases Nat.eq_zero_or_pos (j - i) with zero | more
        · rw [zero] at found
          exact ⟨zero, Option.some.inj found⟩
        · rw [List.getElem?_eq_none more] at found
          cases found
      obtain rfl : j = i := by omega
      rw [ew]
  · simp only [rank, at_]

theorem main_listening (h : Sound s) (at_ : s.main = .listening) : ∃ s', MainMoves s s' := by
  have stages := h.stages
  rw [at_] at stages
  have taken : s.mainStep true = some (.ok { s with running := true, main := .serving }) := by
    simp only [mainStep, at_]
  refine ⟨_, taken, .same rfl rfl, nofun, h.turn trivial stages ?_ (fun j _ now => ?_) fun _ => rfl, ?_⟩
  · rw [at_]
    rfl
  · rw [at_]
    exact now
  · simp only [rank, at_]

/-- `~Server` begins. -/
theorem Sound.destroy (h : Sound s) (at_ : s.main = .serving) :
    Sound ({ s with main := .destroying 0 } : MultiServer n) ∧
      ({ s with main := .destroying 0 } : MultiServer n).rank + 1 = s.rank := by
  have stages := h.stages
  rw [at_] at stages
  refine ⟨h.turn (Nat.zero_le n) stages ?_ (fun j _ now => ?_) nofun, ?_⟩
  · rw [at_]
    rfl
  · rw [at_]
    exact now
  · simp only [rank, at_, Nat.sub_zero]

theorem main_destroying (h : Sound s) (at_ : s.main = .destroying i) :
    ∃ s', MainMoves s s' ∧ (i < n → ∃ p, s'.main = .waking i p) := by
  have within := h.within
  have length := h.length
  have stages := h.stages
  have named := h.named
  rw [at_] at within length stages named
  by_cases more : i < n
  · have here : stage n s.main i = .ready := by
      rw [at_, stage, if_neg (Nat.lt_irrefl i), if_pos more]
    obtain ⟨p, ew, at_p, found⟩ := h.ready here
    have taken : s.mainStep true =
        some (.ok { s with heap := s.heap.write p true, main := .waking i p }) := by
      simp only [mainStep, at_, if_pos more, ew, if_true, follow_at found, ok_bind, pure_ok]
    obtain ⟨owned, sees⟩ := h.owned.write at_p true
    refine ⟨_, ⟨taken, .same rfl rfl, fun j q eq => ?_, ⟨owned, ?_, fun j => ?_, more, length,
      fun j q there now => ?_, nofun⟩, ?_⟩, fun _ => ⟨p, rfl⟩⟩
    · cases eq
      change (s.workers i).pc = _
      rw [ew]
    · change view (s.heap.write p true) s.own none = _
      rw [sees, Function.update_of_ne (by simp)]
      exact h.server
    · change InStage (s.heap.write p true) (s.workers j) (view (s.heap.write p true) s.own (some j)) _
      have stands := stages j
      by_cases same : j = i
      · subst same
        rw [sees, Function.update_self, ew]
        simp only [stage, if_neg (Nat.lt_irrefl j), if_true]
        exact .looping
      · have other : some j ≠ some i := fun eq => same (Option.some.inj eq)
        have still : stage n (.waking i p) j = stage n (.destroying i) j := by
          simp only [stage, if_neg same]
        rw [sees, Function.update_of_ne other]
        change InStage _ _ _ (stage n (.waking i p) j)
        rw [still]
        refine stands.quiet ?_ _
        simp only [stage]
        split_ifs <;> rfl
    · refine named j q there ?_
      have ready : stage n (.waking i p) j = .ready := now
      simp only [stage] at ready ⊢
      split_ifs at ready ⊢
      rfl
    · simp only [rank, at_, ew, IoPc.rank]
      omega
  · have taken : s.mainStep true = some (.ok { s with main := .done }) := by
      simp only [mainStep, at_, if_neg more]
    obtain rfl : i = n := Nat.le_antisymm within (Nat.not_lt.mp more)
    refine ⟨_, ⟨taken, .same rfl rfl, nofun,
      h.turn trivial (fun j => ?_) ?_ (fun j _ now => ?_) nofun, ?_⟩, fun less => absurd less more⟩
    · have stands := stages j
      simp only [stage] at stands ⊢
      split_ifs at stands ⊢ <;> exact stands
    · rw [at_]
      rfl
    · simp only [stage] at now
      split_ifs at now
    · simp only [rank, at_]
      omega

theorem main_waking (h : Sound s) {p : Nat} (at_ : s.main = .waking i p) :
    (s.mainStep true = some (.error .useAfterFree) ∧ s.heap.cells p = none) ∨ ∃ s', MainMoves s s' := by
  have within := h.within
  have stages := h.stages
  rw [at_] at within stages
  cases found : s.heap.cells p with
  | none => exact .inl ⟨by simp only [mainStep, at_, wakeup, follow_dead found]; rfl, rfl⟩
  | some stop =>
    have taken : s.mainStep true = some (.ok { s with main := .joining i }) := by
      simp only [mainStep, at_, wakeup_at found, ok_bind, pure_ok]
    refine .inr ⟨_, taken, .same rfl rfl, nofun,
      h.turn within (fun j => ?_) ?_ (fun j _ now => ?_) nofun, ?_⟩
    · have stands := stages j
      simp only [stage] at stands ⊢
      split_ifs at stands ⊢
      · exact stands
      · exact ⟨p, stands⟩
      · exact stands
      · exact stands
    · rw [at_]
      rfl
    · rw [at_]
      simp only [stage] at now ⊢
      split_ifs at now ⊢
      rfl
    · simp only [rank, at_]
      omega

theorem main_joining (h : Sound s) (at_ : s.main = .joining i) :
    (s.mainStep true = none ∧ (s.workers i).pc ≠ .returned) ∨ ∃ s', MainMoves s s' := by
  have within := h.within
  have stages := h.stages
  rw [at_] at within stages
  by_cases ended : (s.workers i).pc = .returned
  · have taken : s.mainStep true = some (.ok { s with main := .destroying (i + 1) }) := by
      simp only [mainStep, at_, if_pos ended]
    obtain ⟨p, ending⟩ : ∃ p, Ending s.heap p (s.workers i) (s.stops (some i)) := by
      have stands := stages i
      simp only [stage, if_neg (Nat.lt_irrefl i), if_true] at stands
      exact stands
    have gone : s.workers i = ⟨.null, true, .returned⟩ := by
      generalize s.workers i = w at ending ended
      generalize s.stops (some i) = seen at ending
      cases ending with
      | looping => cases ended
      | left => cases ended
      | deleted dead => cases ended
      | returned dead => rfl
    refine .inr ⟨_, taken, .same rfl rfl, nofun,
      h.turn within (fun j => ?_) ?_ (fun j _ now => ?_) nofun, ?_⟩
    · have stands := stages j
      by_cases same : j = i
      · subst same
        simp only [stage, if_pos (Nat.lt_succ_self j)]
        exact gone
      · have iff : j < i + 1 ↔ j < i := by omega
        simp only [stage, if_neg same, iff] at stands ⊢
        exact stands
    · rw [at_]
      rfl
    · rw [at_]
      simp only [stage] at now ⊢
      split_ifs at now ⊢ <;> first | rfl | omega
    · simp only [rank, at_, ended, IoPc.rank]
  · exact .inl ⟨by simp only [mainStep, at_, if_neg ended], ended⟩

/-- The server waits for worker `k`, or stops it. -/
def At (main : MainPc) (k : Nat) : Prop :=
  main = .spinning k ∨ (∃ p, main = .waking k p) ∨ main = .joining k

theorem WorkerMoves.ranked (moves : WorkerMoves s k s') (at_ : At s.main k) : s'.rank + 1 = s.rank := by
  have less := moves.rank
  obtain at_ | ⟨p, at_⟩ | at_ := at_ <;> simp only [MultiServer.rank, moves.main, at_] <;> omega

theorem stage_active (active : (stage n main k).isQuiet = false) : At main k := by
  cases main <;> simp only [stage] at active <;> split_ifs at active <;> first
    | (subst_vars; simp [At]; done)
    | cases active

/-- Every step of a worker is that of the one at which the server stands. -/
theorem Sound.worker (h : Sound s) (k : Nat) :
    s.workerStep k true = none ∨ At s.main k ∧ ∃ s', WorkerMoves s k s' := by
  cases quiet : (stage n s.main k).isQuiet with
  | true => exact .inl (h.rests quiet)
  | false =>
    have at_ := stage_active quiet
    cases here : stage n s.main k with
    | idle =>
      rw [here] at quiet
      cases quiet
    | ready =>
      rw [here] at quiet
      cases quiet
    | gone =>
      rw [here] at quiet
      cases quiet
    | starting => exact (h.starts here).imp And.left fun moves => ⟨at_, moves⟩
    | waking p => exact (h.wakes here).imp And.left fun moves => ⟨at_, moves⟩
    | joining => exact (h.joins here).imp And.left fun moves => ⟨at_, moves⟩

/-- The thread of the server goes wrong only where it wakes up a loop that its worker has deleted. -/
theorem Sound.mainStep (h : Sound s) : s.mainStep true = none ∨ (∃ s', MainMoves s s') ∨
    (s.mainStep true = some (.error .useAfterFree) ∧
      ∃ i p, s.main = .waking i p ∧ s.heap.cells p = none) := by
  cases at_ : s.main with
  | constructing i => exact .inr (.inl (main_constructing h at_))
  | spinning i => exact (main_spinning h at_).imp And.left .inl
  | reading i => exact .inr (.inl (main_reading h at_))
  | listening => exact .inr (.inl (main_listening h at_))
  | serving => exact .inl (by simp only [MultiServer.mainStep, at_])
  | destroying i =>
    obtain ⟨s', moves, -⟩ := main_destroying h at_
    exact .inr (.inl ⟨s', moves⟩)
  | waking i p =>
    rcases main_waking h at_ with ⟨fault, dead⟩ | moves
    · exact .inr (.inr ⟨fault, i, p, rfl, dead⟩)
    · exact .inr (.inl moves)
  | joining i => exact (main_joining h at_).imp And.left .inl
  | done => exact .inl (by simp only [MultiServer.mainStep, at_])

/-! What a failing `Wakeup` changes. -/

theorem workerStep_wrote (s : MultiServer n) (k : Nat) : s.workerStep k false = s.workerStep k true ∨
    (s.workers k).pc = .left ∧ s.workerStep k false = some (.error .abort) := by
  cases pc : (s.workers k).pc with
  | left =>
    simp only [workerStep, pc, wakeup]
    cases s.follow (s.workers k).evd with
    | error f => exact .inl rfl
    | ok r => exact .inr ⟨trivial, rfl⟩
  | unborn | begun | stored | looping | deleted | returned => exact .inl (by simp only [workerStep, pc])

theorem workerStep_fails (left : (s.workers k).pc = .left) (taken : s.workerStep k true = some (.ok s')) :
    s.workerStep k false = some (.error .abort) := by
  simp only [workerStep, left, wakeup] at taken ⊢
  cases led : s.follow (s.workers k).evd with
  | error f => rw [led] at taken; cases taken
  | ok r => rfl

theorem mainStep_wrote (s : MultiServer n) : s.mainStep false = s.mainStep true ∨
    (∃ i p, s.main = .waking i p ∧ s.heap.cells p ≠ none) ∧ s.mainStep false = some (.error .abort) := by
  cases at_ : s.main with
  | waking i p =>
    cases found : s.heap.cells p with
    | none =>
      left
      simp only [MultiServer.mainStep, at_, wakeup, follow_dead found]
      rfl
    | some stop =>
      refine .inr ⟨⟨i, p, rfl, by simp [found]⟩, ?_⟩
      simp only [MultiServer.mainStep, at_, wakeup, follow_at found]
      rfl
  | constructing | spinning | reading | listening | serving | destroying | joining | done =>
    exact .inl (by simp only [MultiServer.mainStep, at_])

/-- A step that goes well does so when its write succeeds. -/
theorem workerStep_taken {wrote : Bool} (taken : s.workerStep k wrote = some (.ok s')) :
    s.workerStep k true = some (.ok s') := by
  cases wrote with
  | true => exact taken
  | false =>
    rcases workerStep_wrote s k with same | ⟨-, fails⟩
    · exact same.symm.trans taken
    · cases fails.symm.trans taken

theorem mainStep_taken {wrote : Bool} (taken : s.mainStep wrote = some (.ok s')) :
    s.mainStep true = some (.ok s') := by
  cases wrote with
  | true => exact taken
  | false =>
    rcases mainStep_wrote s with same | ⟨-, fails⟩
    · exact same.symm.trans taken
    · cases fails.symm.trans taken

theorem mainStep_fails {p : Nat} (at_ : s.main = .waking i p) (alive : s.heap.cells p ≠ none) :
    s.mainStep false = some (.error .abort) := by
  obtain ⟨stop, found⟩ := Option.ne_none_iff_exists'.mp alive
  simp only [MultiServer.mainStep, at_, wakeup, follow_at found]
  rfl

end MultiServer
end Yamq
