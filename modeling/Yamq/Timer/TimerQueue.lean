import Yamq.Base.RbTree

/-! `TimerQueueRbtree` and its base class, over the operations of `rbtree.h` that it uses. The public
`AddTimer` and `CancelTimer` are `callAddTimer` and `callCancelTimer` here, for a caller on the loop
thread, where `RunInEvd` runs the functor at once; `addTimer` and `cancelTimer` are the private ones. -/
namespace Yamq

/-- A tree of `Timer` pointers with handles `N` for its nodes. -/
class TimerTree (T : Type) (N : outParam Type) where
  insertTimer : T → Int → Nat → Except Fault (T × N)
  minNode : T → Except Fault N
  /-- `n == _tree->nil` -/
  isNil : T → N → Bool
  entryOf : T → N → Except Fault (Entry Nat)
  deleteNode : T → N → Except Fault T
  /-- more turns than a loop over the nodes takes -/
  turns : T → Nat

instance : TimerTree (Rbtree Nat) Ptr where
  insertTimer t key data := t.insert key data
  minNode t := t.min
  isNil t n := n = t.nil
  entryOf t n := return (← t.get n).entry
  deleteNode t n := t.delete n
  turns t := t.fresh

/-- Why the loop thread stops: a `Timer` is used after it was deleted, or a fault elsewhere. -/
inductive Halt where
  | deletedTimer
  | fault (f : Fault)
deriving DecidableEq, Repr

def lift {α : Type} : Except Fault α → Except Halt α
  | .ok a => .ok a
  | .error f => .error (.fault f)

structure Timer (N : Type) where
  id : Int
  expire : UInt64 := 0
  time : UInt64
  interval : Int64
  elapse : Int64
  cb : Nat
  attach : Option N := none

/-- The kernel's side of the timerfd: a one-shot alarm for an instant, readable once that has
passed. -/
inductive Timerfd where
  | off
  | armed (deadline : UInt64)
  | readable
deriving DecidableEq, Repr

def Timerfd.tick (now : UInt64) : Timerfd → Timerfd
  | .armed deadline => if deadline ≤ now then .readable else .armed deadline
  | fd => fd

def Timerfd.arm (deadline now : UInt64) : Timerfd :=
  if deadline ≤ now then .readable else .armed deadline

/-- `uint64_t` to `long long` -/
def toLongLong (n : UInt64) : Int := n.toInt64.toInt

structure TimerQueue (T N : Type) where
  tree : T
  ownEpoch : UInt64
  slot : Int := 0
  /-- `_ref`, in which an id may have a null pointer -/
  ref : List (Int × Option Nat) := []
  /-- the `Timer` objects that are not deleted, with the addresses from `allocated` on unused -/
  timers : Nat → Option (Timer N) := fun _ => none
  allocated : Nat := 0
  timerfd : Timerfd := .off
  /-- what `Clock::GetNowTicks` reads -/
  clock : UInt64

namespace TimerQueue

variable {T N : Type} [TimerTree T N]

open TimerTree

def get (q : TimerQueue T N) (p : Nat) : Except Halt (Timer N) :=
  match q.timers p with
  | some timer => .ok timer
  | none => .error .deletedTimer

def put (q : TimerQueue T N) (p : Nat) (timer : Option (Timer N)) : TimerQueue T N :=
  { q with timers := Function.update q.timers p timer }

def resetTimerfd (q : TimerQueue T N) (ticks : UInt64) : TimerQueue T N :=
  { q with timerfd := .arm ticks q.clock }

/-- The loop of `nextId`. -/
def nextIdLoop (ref : List (Int × Option Nat)) : Nat → Int → Except Fault Int
  | 0, _ => .error .endless
  | fuel + 1, next => do
    let next := if next < 0 then 0 else next
    if (ref.lookup next).isSome then nextIdLoop ref fuel (← addInt next 1)
    else return next

def nextId (q : TimerQueue T N) : Except Fault Int := do
  nextIdLoop q.ref (q.ref.length + 1) (← addInt q.slot 1)

/-- `AddTimer` before it hands the new timer to the loop. -/
def createTimer (q : TimerQueue T N) (time interval : UInt64) (cb : Nat) :
    Except Halt (TimerQueue T N × Nat) := do
  let id ← lift q.nextId
  let p := q.allocated
  let timer : Timer N :=
    { id, time, interval := interval.toInt64, elapse := interval.toInt64, cb }
  let q := q.put p (some timer)
  return ({ q with allocated := p + 1, slot := id, ref := (id, some p) :: q.ref }, p)

def addTimer (q : TimerQueue T N) (p : Nat) : Except Halt (TimerQueue T N) := do
  let timer ← q.get p
  let expire := q.clock - q.ownEpoch + timer.time
  let (tree, n) ← lift (insertTimer q.tree (toLongLong expire) p)
  let q := { q.put p (some { timer with expire, attach := some n }) with tree }
  let least ← lift (minNode q.tree)
  if toLongLong expire ≤ (← lift (entryOf q.tree least)).key then
    return q.resetTimerfd (q.ownEpoch + expire)
  else return q

def callAddTimer (q : TimerQueue T N) (time interval : UInt64) (cb : Nat) :
    Except Halt (TimerQueue T N) := do
  let (q, p) ← q.createTimer time interval cb
  q.addTimer p

/-- The node of a timer, if it has one, leaves the tree. -/
def detach (q : TimerQueue T N) : Option N → Except Halt (TimerQueue T N)
  | none => .ok q
  | some n => do
    let tree ← lift (deleteNode q.tree n)
    return { q with tree }

/-- The lookup `_ref[id]` adds a null pointer for an unknown id. -/
def cancelTimer (q : TimerQueue T N) (id : Int) : Except Halt (TimerQueue T N × Bool) :=
  match q.ref.lookup id with
  | none => .ok ({ q with ref := (id, none) :: q.ref }, false)
  | some none => .ok (q, false)
  | some (some p) => do
    let timer ← q.get p
    let q ← q.detach timer.attach
    return (q.put p none, true)

def callCancelTimer (q : TimerQueue T N) (id : Int) : Except Halt (TimerQueue T N) := do
  return (← q.cancelTimer id).1

/-- The first loop of `PerTick`, with the timers collected so far. -/
def collect (now : UInt64) : Nat → TimerQueue T N → List Nat → Except Halt (TimerQueue T N × List Nat)
  | 0, _, _ => .error (.fault .endless)
  | fuel + 1, q, expired => do
    let n ← lift (minNode q.tree)
    if isNil q.tree n then return (q, expired)
    else
      let p := (← lift (entryOf q.tree n)).val
      let timer ← q.get p
      if timer.expire < now then
        let tree ← lift (deleteNode q.tree n)
        let q := { q with tree }.put p (some { timer with attach := none })
        collect now fuel q (expired ++ [p])
      else return (q, expired)

/-- `PerTick` up to its second loop. -/
def expiredTimers (q : TimerQueue T N) : Except Halt (TimerQueue T N × List Nat) :=
  collect (q.clock - q.ownEpoch) (turns q.tree) q []

/-- The expiry of the least timer, or -1. -/
def waitTimeUsec (q : TimerQueue T N) : Except Halt Int64 := do
  let n ← lift (minNode q.tree)
  if isNil q.tree n then return -1
  else
    let timer ← q.get (← lift (entryOf q.tree n)).val
    return timer.expire.toInt64

def readTimerfd (q : TimerQueue T N) : Except Halt (TimerQueue T N) :=
  if q.timerfd = .readable then .ok { q with timerfd := .off } else .error (.fault .abort)

/-- The end of `HandleRead`. -/
def rearm (q : TimerQueue T N) : Except Halt (TimerQueue T N) := do
  let expire ← q.waitTimeUsec
  if 0 < expire then return q.resetTimerfd (q.ownEpoch + expire.toUInt64) else return q

end TimerQueue

/-- Where the loop thread is. The second loop of `PerTick` has the rest of the expired timers before
it, and may be inside the callback of one. -/
inductive TickPc where
  | idle
  | visiting (rest : List Nat) (handling : Bool)
  | calling (timer : Nat) (rest : List Nat) (handling : Bool)
deriving DecidableEq, Repr

/-- What `HandleRead` or a direct `PerTick` still has to visit. -/
def TickPc.batch : TickPc → List Nat
  | .idle => []
  | .visiting rest _ => rest
  | .calling timer rest _ => timer :: rest

/-- Handlers and callbacks call `AddTimer` and `CancelTimer`. -/
def TickPc.calls : TickPc → Bool
  | .visiting _ _ => false
  | _ => true

inductive TimerEvent where
  | added (timer : Nat)
  | fired (timer : Nat)
  | cancelled (timer : Nat)
deriving DecidableEq, Repr

/-- The queue on its loop thread, with what has happened to its timers. -/
structure TimerLoop (T N : Type) where
  queue : TimerQueue T N
  pc : TickPc := .idle
  history : List TimerEvent := []

inductive TimerOp where
  | clock (now : UInt64)
  | addTimer (time interval : UInt64) (cb : Nat)
  | cancelTimer (id : Int)
  | perTick
  | handleRead
  | visit     -- the next turn of the second loop of `PerTick`
  | return_   -- the callback returns
deriving DecidableEq, Repr

/-- `EventDispatcher::AddTimer` on the loop thread. -/
def TimerOp.evdAddTimer (timeMs : Int64) (interval : Int32) (cb : Nat) : TimerOp :=
  .addTimer (timeMs.toUInt64 * 1000000) interval.toInt64.toUInt64 cb

namespace TimerLoop

variable {T N : Type} [TimerTree T N]

/-- The turn of the second loop of `PerTick` at a timer, up to the call of its callback. -/
def visitTimer (l : TimerLoop T N) (p : Nat) (rest : List Nat) (handling : Bool) :
    Except Halt (TimerLoop T N) := do
  let timer ← l.queue.get p
  if 0 < timer.elapse then
    let q := l.queue.put p (some { timer with elapse := timer.elapse - 1 })
    return { queue := q, pc := .calling p rest handling, history := l.history ++ [.fired p] }
  else return { l with queue := l.queue.put p none, pc := .visiting rest handling }

/-- The same turn after the callback. -/
def returnTo (l : TimerLoop T N) (p : Nat) (rest : List Nat) (handling : Bool) :
    Except Halt (TimerLoop T N) := do
  let timer ← l.queue.get p
  if 0 < timer.elapse then
    return { l with queue := ← l.queue.addTimer p, pc := .visiting rest handling }
  else return { l with queue := l.queue.put p none, pc := .visiting rest handling }

def startTick (l : TimerLoop T N) (q : TimerQueue T N) (handling : Bool) :
    Except Halt (TimerLoop T N) := do
  let (q, expired) ← q.expiredTimers
  return { l with queue := q, pc := .visiting expired handling }

def callAddTimer (l : TimerLoop T N) (time interval : UInt64) (cb : Nat) :
    Except Halt (TimerLoop T N) := do
  let q ← l.queue.callAddTimer time interval cb
  return { l with queue := q, history := l.history ++ [.added l.queue.allocated] }

/-- The event of a cancellation, when the id has a timer. -/
def cancelEvents (l : TimerLoop T N) (id : Int) : List TimerEvent :=
  match l.queue.ref.lookup id with
  | some (some p) => [.cancelled p]
  | _ => []

def callCancelTimer (l : TimerLoop T N) (id : Int) : Except Halt (TimerLoop T N) := do
  let q ← l.queue.callCancelTimer id
  return { l with queue := q, history := l.history ++ l.cancelEvents id }

/-- A new queue. Its tree is empty. -/
def start (tree : T) (clock : UInt64) : TimerLoop T N :=
  { queue := { tree, ownEpoch := clock, clock } }

/-- One step of the loop thread, or of the clock; `none` where the loop thread is elsewhere. -/
def step (l : TimerLoop T N) : TimerOp → Option (Except Halt (TimerLoop T N))
  | .clock now =>
    some (.ok { l with queue := { l.queue with clock := now, timerfd := l.queue.timerfd.tick now } })
  | .addTimer time interval cb =>
    if l.pc.calls then some (l.callAddTimer time interval cb) else none
  | .cancelTimer id =>
    if l.pc.calls then some (l.callCancelTimer id) else none
  | .perTick => if l.pc = .idle then some (l.startTick l.queue false) else none
  | .handleRead =>
    if l.pc = .idle then some (do l.startTick (← l.queue.readTimerfd) true) else none
  | .visit =>
    match l.pc with
    | .visiting (p :: rest) handling => some (l.visitTimer p rest handling)
    | .visiting [] false => some (.ok { l with pc := .idle })
    | .visiting [] true => some (do return { l with queue := ← l.queue.rearm, pc := .idle })
    | _ => none
  | .return_ =>
    match l.pc with
    | .calling p rest handling => some (l.returnTo p rest handling)
    | _ => none

def next (l : TimerLoop T N) (op : TimerOp) : Option (TimerLoop T N) := (l.step op).bind Except.toOption

/-- A step to a next state. -/
def Steps (l : TimerLoop T N) (op : TimerOp) (l' : TimerLoop T N) : Prop := l.next op = some l'

theorem steps_iff {l l' : TimerLoop T N} {op : TimerOp} : Steps l op l' ↔ l.step op = some (.ok l') := by
  unfold Steps next
  rcases l.step op with _ | (_ | _) <;> simp [Except.toOption]

end TimerLoop
end Yamq
