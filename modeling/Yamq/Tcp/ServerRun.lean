import Yamq.Tcp.Lifecycle
import Yamq.Tcp.ServerMulti

/-! `multi::Server` over whole runs: `rpc/tcp/acceptor.cpp`, `newConnect`, the table of connections,
and what the loops run on each connection. What the user's callbacks do are operations of their own;
functors that wait for a loop run in any order. -/
namespace Yamq

/-- The errors that `_accept_connect` expects, and the others. -/
inductive AcceptErrno where
  | EAGAIN | ECONNABORTED | EINTR | EPROTO | EPERM | EMFILE
  | other (code : Int)
deriving DecidableEq, Repr

def AcceptErrno.expected : AcceptErrno → Bool
  | .other _ => false
  | _ => true

inductive AcceptResult where
  | connfd (fd : Nat)
  | fails (errno : AcceptErrno)
deriving DecidableEq, Repr

/-- A connection object on a loop, and the bytes that the kernel has accepted from it. -/
structure Peer where
  conn : Connection
  evd : Nat
  accepted : Bytes := []

structure ServerRun where
  dispatchers : Dispatchers
  nextId : Int := 1
  /-- `_connections` -/
  connections : List (Int × Nat) := []
  /-- functors that wait: `establish`, the close of a `ForceClose`, the erasing of `removeConnect` -/
  establishing : List Nat := []
  closing : List Nat := []
  erasing : List Int := []
  /-- the connection objects, with the identities from `created` on unused -/
  peers : Nat → Option Peer := fun _ => none
  created : Nat
  regs : Nat → Registrations

inductive ServerOp where
  | accept (result : AcceptResult)
  | establish (self : Nat)
  | read (self : Nat) (result : IoBuffer.ReadResult)
  | handleWrite (self : Nat) (result : SendResult)
  | send (self : Nat) (data : Bytes) (result : SendResult)
  | forceClose (self : Nat)    -- on the loop of the connection
  | testClose (self : Nat)     -- by another thread, which queues the close
  | close (self : Nat)
  | erase (id : Int)

namespace ServerRun

def acceptConnect : AcceptResult → Except Fault Int
  | .connfd fd => .ok fd
  | .fails errno => if errno.expected then .ok (-1) else .error .abort

/-- The loop of `nextId`. The identifiers are `int64_t`. -/
def nextIdLoop (taken : List Int) : Nat → Int → Except Fault Int
  | 0, _ => .error .endless
  | fuel + 1, id =>
    let id := if id < 0 then 1 else id
    if id ∈ taken then
      if id + 1 < 9223372036854775808 then nextIdLoop taken fuel (id + 1) else .error .intOverflow
    else .ok id

def freeId (s : ServerRun) : Except Fault Int :=
  nextIdLoop (s.connections.map Prod.fst) (s.connections.length + 1) s.nextId

/-- A connection as its loop sees it. -/
def view (s : ServerRun) (p : Peer) : Lifecycle :=
  { endpoint := ⟨p.conn, s.regs p.evd, p.accepted⟩, held := true }

def serving (s : ServerRun) (p : Peer) : Serving :=
  if p.evd = s.dispatchers.evd then .alone else .worker

def put (s : ServerRun) (k : Nat) (p : Peer) : ServerRun :=
  { s with peers := fun j => if j = k then some p else s.peers j }

def drop (s : ServerRun) (id : Int) : List (Int × Nat) := s.connections.filter fun x => x.1 != id

/-- What a call on the loop of a connection leaves. -/
def store (s : ServerRun) (k : Nat) (p : Peer) (c : Lifecycle) : ServerRun :=
  { s.put k { p with conn := c.endpoint.conn, accepted := c.endpoint.accepted } with
    regs := fun evd => if evd = p.evd then c.endpoint.regs else s.regs evd
    connections := if c.held then s.connections else s.drop p.conn.id
    erasing := if c.erasing = 0 then s.erasing else s.erasing ++ [p.conn.id] }

def perform (s : ServerRun) (k : Nat) (f : LifeCall) : Except Fault ServerRun :=
  match s.peers k with
  | none => .error .useAfterFree
  | some p =>
    match f.run (s.serving p) (s.view p) with
    | .ok c => .ok (s.store k p c)
    | .error stopped => .error stopped.fault

/-- `RunInEvd` of `establish` from the main loop. -/
def runEstablish (s : ServerRun) (k evd : Nat) : Except Fault ServerRun :=
  if evd = s.dispatchers.evd then s.perform k .establish
  else .ok { s with establishing := s.establishing ++ [k] }

def newConnect (s : ServerRun) (sockfd : Int) : Except Fault ServerRun := do
  let id ← s.freeId
  let (evd, dispatchers) ← s.dispatchers.nextEvd
  let k := s.created
  let con : Peer := { conn := { self := k, fd := sockfd, id := id }, evd := evd }
  let s := { s.put k con with nextId := id, dispatchers := dispatchers, created := k + 1 }
  let s ← s.runEstablish k evd
  return { s with connections := (id, k) :: s.connections }

/-- `Acceptor::HandleRead`. The callback is `newConnect`. -/
def handleAccept (s : ServerRun) (result : AcceptResult) : Except Fault ServerRun := do
  s.newConnect (← acceptConnect result)

/-- `Connection::HandleRead`. -/
def handleRead (s : ServerRun) (k : Nat) (result : IoBuffer.ReadResult) : Except Fault ServerRun :=
  match s.peers k with
  | none => .error .useAfterFree
  | some p => do
    let (n, buf) ← p.conn.inputBuf.retrieve result
    let s := s.put k { p with conn := { p.conn with inputBuf := buf } }
    if 0 < n then return s else s.perform k .handleEof

/-- An event can come to the connection. -/
def Registered (s : ServerRun) (p : Peer) : Prop := p.conn.attached = true ∧ (s.view p).Registered

/-- Its `HandleWrite` can run: for an event, or behind a `HandleRead` of the same event that has
removed the channel. -/
def Writing (s : ServerRun) (p : Peer) : Prop :=
  p.conn.attached = true ∧ ((s.view p).Registered ∨ (s.regs p.evd).interest p.conn.fd = none)

instance (s : ServerRun) (p : Peer) : Decidable (s.Registered p) := inferInstanceAs (Decidable (_ ∧ _))
instance (s : ServerRun) (p : Peer) : Decidable (s.Writing p) := inferInstanceAs (Decidable (_ ∧ _))

/-- The outcome of an operation that is possible now. -/
def step (s : ServerRun) : ServerOp → Option (Except Fault ServerRun)
  | .accept result => some (s.handleAccept result)
  | .establish k =>
    if k ∈ s.establishing then
      some ({ s with establishing := s.establishing.erase k }.perform k .establish)
    else none
  | .read k result => do if s.Registered (← s.peers k) then some (s.handleRead k result) else none
  | .handleWrite k result => do
    if s.Writing (← s.peers k) then some (s.perform k (.handleWrite result)) else none
  | .send k data result => do let _ ← s.peers k; return s.perform k (.send data result)
  | .forceClose k => do let _ ← s.peers k; return s.perform k .forceClose
  | .testClose k => do
    if (← s.peers k).conn.status = .CONNECTED then some (.ok { s with closing := s.closing ++ [k] })
    else none
  | .close k =>
    if k ∈ s.closing then some ({ s with closing := s.closing.erase k }.perform k .close) else none
  | .erase id =>
    if id ∈ s.erasing then
      some (.ok { s with erasing := s.erasing.erase id, connections := s.drop id })
    else none

def Steps (s : ServerRun) (op : ServerOp) (s' : ServerRun) : Prop := s.step op = some (.ok s')

end ServerRun
end Yamq
