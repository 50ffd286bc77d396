import Yamq.Rpc.EventDispatcher
import Yamq.Tcp.Connection

/-! The life of one connection: `newConnect`, `closeConnect` and `removeConnect` of
`rpc/tcp/server.cpp` and `rpc/tcp/server_multi.cpp`, `ForceClose` and the end of file in
`rpc/tcp/connection.cpp`, on the loop of the connection and beside it. -/
namespace Yamq

/-- Which server the connection belongs to. -/
inductive Serving where
  | single   -- `Server`
  | alone    -- `multi::Server` without workers
  | worker   -- `multi::Server`, with the connection on the loop of a worker
deriving DecidableEq, Repr

structure Lifecycle where
  endpoint : Endpoint
  /-- `_connections` holds the connection -/
  held : Bool := false
  /-- the erasing functors of `removeConnect` that wait on the main loop -/
  erasing : Nat := 0
  /-- the threads in `ForceClose` that have passed its test -/
  closing : List Nat := []
  /-- the calls of the close callback, of `RemoveChannel` and of `::close` -/
  callbacks : Nat := 0
  removals : Nat := 0
  closes : Nat := 0

/-- Where the process stopped. -/
structure Stopped where
  last : Lifecycle
  fault : Fault

namespace Lifecycle

def lift (c : Lifecycle) : Except Fault Endpoint → Except Stopped Lifecycle
  | .ok e => .ok { c with endpoint := e }
  | .error f => .error ⟨c, f⟩

def status (c : Lifecycle) : ConnectionStatus := c.endpoint.conn.status

def setStatus (c : Lifecycle) (status : ConnectionStatus) : Lifecycle :=
  { c with endpoint := { c.endpoint with conn := { c.endpoint.conn with status := status } } }

def setEvents (c : Lifecycle) (events : Flags) : Except Stopped Lifecycle :=
  c.lift do return c.endpoint.setChannel (← c.endpoint.conn.setEvents c.endpoint.regs events)

def setRegs (c : Lifecycle) (run : Except Fault Registrations) : Except Stopped Lifecycle :=
  c.lift do return { c.endpoint with regs := ← run }

/-- `Channel::Remove`. -/
def remove (c : Lifecycle) : Except Stopped Lifecycle :=
  { c with removals := c.removals + 1 }.setRegs
    (c.endpoint.regs.removeChannel c.endpoint.conn.toChannel)

/-- `closeConnect`, the close callback, with `removeConnect`. On a worker's loop the entry of
`_connections` is left to a functor of the main loop. -/
def closeConnect (serving : Serving) (c : Lifecycle) : Except Stopped Lifecycle :=
  let c := { c with callbacks := c.callbacks + 1 }
  match serving with
  | .single => do
    let c ← c.setEvents EV_NONE
    let c ← c.remove
    return { c with held := false }
  | .alone => do
    let c ← c.remove
    return { c with held := false }
  | .worker => do
    let c ← c.remove
    return { c with erasing := c.erasing + 1 }

/-- The functor of `ForceClose`. -/
def close (serving : Serving) (c : Lifecycle) : Except Stopped Lifecycle := do
  let c ← (c.setStatus .CLOSING).closeConnect serving
  return { c with closes := c.closes + 1 }.setStatus .CLOSED

/-- `ForceClose` on the loop's own thread. -/
def forceClose (serving : Serving) (c : Lifecycle) : Except Stopped Lifecycle :=
  if c.status ≠ .CONNECTED then .ok c else c.close serving

/-- `HandleRead` when `readv` returns 0. -/
def handleEof (serving : Serving) (c : Lifecycle) : Except Stopped Lifecycle := do
  let c ← (c.setStatus .CLOSING).closeConnect serving
  return c.setStatus .CLOSED

/-- The connection that `newConnect` makes of a descriptor. -/
def new (regs : Registrations) (self : Nat) (fd id : Int) : Lifecycle :=
  { endpoint := ⟨{ self := self, fd := fd, id := id }, regs, []⟩ }

/-- The rest of `newConnect`, without the functor for a worker. -/
def newConnect (serving : Serving) (c : Lifecycle) : Except Stopped Lifecycle :=
  match serving with
  | .single => do
    let c ← c.setEvents EV_READ
    { c with held := true }.lift c.endpoint.establish
  | .alone => do
    let c ← c.lift c.endpoint.establish
    return { c with held := true }
  | .worker => .ok { c with held := true }

/-- `_channels` of the loop leads to the connection. -/
def Registered (c : Lifecycle) : Prop :=
  c.endpoint.regs.channels c.endpoint.conn.fd = some c.endpoint.conn.self

instance (c : Lifecycle) : Decidable c.Registered := inferInstanceAs (Decidable (_ = _))

end Lifecycle

/-- What runs on the loop of the connection. -/
inductive LifeCall where
  | establish
  | send (data : Bytes) (result : SendResult)
  | close
  | forceClose
  | handleEof
  | handleWrite (result : SendResult)
  | register (other : Channel)   -- by another channel of the loop
  | remove (other : Channel)
deriving DecidableEq

namespace LifeCall

def run (serving : Serving) : LifeCall → Lifecycle → Except Stopped Lifecycle
  | .establish, c => c.lift c.endpoint.establish
  | .send data result, c => c.lift (c.endpoint.send data result)
  | .close, c => c.close serving
  | .forceClose, c => c.forceClose serving
  | .handleEof, c => c.handleEof serving
  | .handleWrite result, c => c.lift (c.endpoint.handleWrite result)
  | .register other, c => c.setRegs (c.endpoint.regs.registerChannel other)
  | .remove other, c => c.setRegs (c.endpoint.regs.removeChannel other)

/-- What threads hand to `RunInEvd` themselves. -/
def queued : LifeCall → Bool
  | .send .. => true
  | .forceClose => true
  | _ => false

/-- What a handler of the loop can do now. An event comes to a registered channel only, but its
`HandleWrite` may follow a `HandleRead` that has removed the channel. -/
def Handled (c : Lifecycle) : LifeCall → Prop
  | .establish => False
  | .close => False
  | .handleEof => c.Registered
  | .handleWrite _ => c.endpoint.conn.attached = true
  | .register other => other.self ≠ c.endpoint.conn.self
  | .remove other => other.self ≠ c.endpoint.conn.self
  | .send .. => True
  | .forceClose => True

instance (c : Lifecycle) : DecidablePred (Handled c)
  | .establish => inferInstanceAs (Decidable False)
  | .close => inferInstanceAs (Decidable False)
  | .handleEof => inferInstanceAs (Decidable c.Registered)
  | .handleWrite _ => inferInstanceAs (Decidable (c.endpoint.conn.attached = true))
  | .register other => inferInstanceAs (Decidable (other.self ≠ c.endpoint.conn.self))
  | .remove other => inferInstanceAs (Decidable (other.self ≠ c.endpoint.conn.self))
  | .send .. => inferInstanceAs (Decidable True)
  | .forceClose => inferInstanceAs (Decidable True)

end LifeCall

namespace Closing

open Transition Lifecycle

abbrev State := EventDispatcher LifeCall (Except Stopped Lifecycle)

def exec (serving : Serving) (f : LifeCall) (w : Except Stopped Lifecycle) :
    Except Stopped Lifecycle := w >>= f.run serving

inductive Act where
  | forceClose (thread : Nat)             -- the test of `ForceClose` on another thread, passed
  | queueClose (thread : Nat)             -- its `SyncRunInEvd`
  | queue (thread : Nat) (call : LifeCall)
  | handle (call : LifeCall)
  | eraseConnect                          -- the functor of `removeConnect` on the main loop
  | stop (thread : Nat)
  | caller (thread : Nat)
  | wakeupRead
  | loop

def step (serving : Serving) (d : State) (a : Act) : Option State :=
  match d.world with
  | .error _ => none
  | .ok c =>
    match a with
    | .forceClose i =>
      if d.callers i = .idle ∧ i ∉ c.closing ∧ c.status = .CONNECTED then
        some { d with world := .ok { c with closing := c.closing ++ [i] } }
      else none
    | .queueClose i =>
      if i ∈ c.closing then
        EventDispatcher.step (exec serving)
          { d with world := .ok { c with closing := c.closing.erase i } } (.syncRunInEvd i .close)
      else none
    | .queue i call =>
      if i ∉ c.closing ∧ call.queued = true then d.step (exec serving) (.runInEvd i call) else none
    | .handle call => if call.Handled c then d.step (exec serving) (.handler call) else none
    | .eraseConnect =>
      if 0 < c.erasing then
        some { d with world := .ok { c with held := false, erasing := c.erasing - 1 } }
      else none
    | .stop i => if i ∉ c.closing then d.step (exec serving) (.stop i) else none
    | .caller i => d.step (exec serving) (.caller i)
    | .wakeupRead => d.step (exec serving) .wakeupRead
    | .loop => d.step (exec serving) .loop

def Steps (serving : Serving) (d : State) (a : Act) (d' : State) : Prop := step serving d a = some d'

/-- `newConnect` has returned on the main loop, or on the one loop there is; for a worker its thread
is `main`, and `establish` waits. -/
def start (serving : Serving) (wakeupFd eventfd : Int) (main : Nat) (c : Lifecycle) : State :=
  match serving with
  | .worker => (EventDispatcher.new wakeupFd eventfd (c.newConnect serving)).runInEvd main .establish
  | _ => .new wakeupFd eventfd (c.newConnect serving)

/-- A loop that watches nothing. -/
def noRegs : Registrations := ⟨fun _ => none, fun _ => none⟩

/-- The connection, when the process has stopped as it then was. -/
def last : Except Stopped Lifecycle → Lifecycle
  | .ok c => c
  | .error s => s.last

end Closing
end Yamq
