import Yamq.Rpc.Channel
import Yamq.Rpc.IoBufferRoom

/-! `rpc/tcp/connection.h` and the outgoing half of `rpc/tcp/connection.cpp`. The callbacks and the
context of a connection play no part in it. `HandleError` is the empty one of `Channel`. -/
namespace Yamq

inductive ConnectionStatus where
  | CONNECTING | CONNECTED | CLOSING | CLOSED
deriving DecidableEq, Repr

structure Connection extends Channel where
  id : Int
  status : ConnectionStatus := .CONNECTING
  inputBuf : IoBuffer := .new IoBuffer.kInitialSize
  outputBuf : IoBuffer := .new IoBuffer.kInitialSize

inductive Errno where
  | EAGAIN | EINTR | ENOBUFS | EPIPE | ECONNRESET
  | other (code : Int)
deriving DecidableEq, Repr

/-- The outcome of `::send`: the kernel takes at most `room` of the bytes offered, or fails. -/
inductive SendResult where
  | takes (room : Nat)
  | fails (errno : Errno)
deriving DecidableEq, Repr

/-- A connection, the registrations of its loop and the bytes that the kernel has accepted. -/
structure Endpoint where
  conn : Connection
  regs : Registrations
  accepted : Bytes

namespace Endpoint

def setChannel (s : Endpoint) (channel : Channel × Registrations) : Endpoint :=
  { s with conn := { s.conn with toChannel := channel.1 }, regs := channel.2 }

def establish (s : Endpoint) : Except Fault Endpoint := do
  let s := s.setChannel (← s.conn.enableRead s.regs)
  return { s with conn := { s.conn with status := .CONNECTED } }

/-- The end of `send`: what the kernel did not take waits in `_output_buf`. -/
def buffer (s : Endpoint) (remaining : Bytes) : Except Fault Endpoint :=
  if remaining = [] then .ok s
  else do
    let out ← s.conn.outputBuf.put remaining
    let s := { s with conn := { s.conn with outputBuf := out } }
    if s.conn.isWritable then return s
    else return s.setChannel (← s.conn.enableWrite s.regs)

/-- The test before the direct write. -/
def idle (s : Endpoint) : Bool := !s.conn.isWritable && s.conn.outputBuf.readableBytes == 0

def send (s : Endpoint) (data : Bytes) (result : SendResult) : Except Fault Endpoint :=
  if s.conn.status ≠ .CONNECTED then .ok s
  else if s.idle then
    match result with
    | .takes room => { s with accepted := s.accepted ++ data.take room }.buffer (data.drop room)
    | .fails errno =>
      if errno = .EPIPE ∨ errno = .ECONNRESET then .error .abort else s.buffer data
  else s.buffer data

/-- The branch of `HandleWrite` for a positive result. -/
def drain (s : Endpoint) (taken : Bytes) : Except Fault Endpoint := do
  let out ← s.conn.outputBuf.seek (toInt taken.length)
  let s := { s with conn := { s.conn with outputBuf := out }, accepted := s.accepted ++ taken }
  if out.readableBytes = 0 then return s.setChannel (← s.conn.disableWrite s.regs)
  else return s

def handleWrite (s : Endpoint) (result : SendResult) : Except Fault Endpoint := do
  let out := s.conn.outputBuf
  let data ← IoBuffer.load out.buf out.readerIndex (toSize out.readableBytes)
  match result with
  | .takes room => if data.take room = [] then return s else s.drain (data.take room)
  | .fails _ => return s

variable {e e' : Endpoint}

/-- What a call leaves that only changes what its registered channel asks for. -/
structure Within (e e' : Endpoint) : Prop where
  self : e'.conn.self = e.conn.self
  fd : e'.conn.fd = e.conn.fd
  channels : e'.regs.channels = e.regs.channels
  beside : ∀ d, d ≠ e.conn.fd → e'.regs.interest d = e.regs.interest d
  known : e'.regs.interest e.conn.fd = none ↔ e.regs.interest e.conn.fd = none

theorem Within.refl (e : Endpoint) : Within e e := ⟨rfl, rfl, rfl, fun _ _ => rfl, Iff.rfl⟩

theorem Within.setEvents {ch : Channel} {r : Registrations} {events : Flags}
    (attached : e.conn.attached = true) (run : e.conn.setEvents e.regs events = .ok (ch, r)) :
    Within e (e.setChannel (ch, r)) := by
  simp only [Channel.setEvents, Channel.update, attached, if_true, bind_eq_ok] at run
  obtain ⟨r', updated, run⟩ := run
  cases run
  simp only [Registrations.updateChannel, Registrations.update] at updated
  split at updated
  · cases updated
  · rename_i known
    cases updated
    refine ⟨rfl, rfl, rfl, ?_, ?_⟩
    · intro d other
      exact if_neg other
    · refine iff_of_false ?_ known
      simp [setChannel, Registrations.watch]

theorem Within.buffer {remaining : Bytes} (attached : e.conn.attached = true)
    (run : e.buffer remaining = .ok e') : Within e e' := by
  unfold Endpoint.buffer at run
  split at run
  · cases run
    exact .refl e
  · obtain ⟨out, _, run⟩ := bind_eq_ok.mp run
    by_cases flag : e.conn.isWritable = true
    · rw [if_pos flag] at run
      cases run
      exact ⟨rfl, rfl, rfl, fun _ _ => rfl, Iff.rfl⟩
    · rw [if_neg flag] at run
      obtain ⟨⟨ch, r⟩, set, run⟩ := bind_eq_ok.mp run
      cases run
      have kept := @Within.setEvents { e with conn := { e.conn with outputBuf := out } } ch r _
        attached set
      exact ⟨kept.self, kept.fd, kept.channels, kept.beside, kept.known⟩

theorem Within.send {data : Bytes} {result : SendResult}
    (attached : e.conn.status = .CONNECTED → e.conn.attached = true)
    (run : e.send data result = .ok e') : Within e e' := by
  by_cases connected : e.conn.status = .CONNECTED
  · have attached := attached connected
    simp only [Endpoint.send, connected, ne_eq, not_true, if_false] at run
    split at run
    · cases result with
      | takes room =>
        have kept := @Within.buffer { e with accepted := e.accepted ++ data.take room } _ _ attached run
        exact ⟨kept.self, kept.fd, kept.channels, kept.beside, kept.known⟩
      | fails errno =>
        simp only at run
        split at run
        · cases run
        · exact .buffer attached run
    · exact .buffer attached run
  · simp only [Endpoint.send, ne_eq, connected, not_false_iff, if_true] at run
    cases run
    exact .refl e

theorem Within.handleWrite {result : SendResult} (attached : e.conn.attached = true)
    (run : e.handleWrite result = .ok e') : Within e e' := by
  obtain ⟨data, _, run⟩ := bind_eq_ok.mp run
  cases result with
  | fails errno =>
    cases run
    exact .refl e
  | takes room =>
    by_cases none : data.take room = []
    · simp only [none, if_true] at run
      cases run
      exact .refl e
    · simp only [none, if_false, drain, bind_eq_ok] at run
      obtain ⟨out, _, run⟩ := run
      split at run
      · obtain ⟨⟨ch, r⟩, set, run⟩ := bind_eq_ok.mp run
        cases run
        have kept := @Within.setEvents { e with
          conn := { e.conn with outputBuf := out }, accepted := e.accepted ++ data.take room } ch r _
          attached set
        exact ⟨kept.self, kept.fd, kept.channels, kept.beside, kept.known⟩
      · cases run
        exact ⟨rfl, rfl, rfl, fun _ _ => rfl, Iff.rfl⟩

theorem handleWrite_status {result : SendResult} (run : e.handleWrite result = .ok e') :
    e'.conn.status = e.conn.status := by
  obtain ⟨data, _, run⟩ := bind_eq_ok.mp run
  cases result with
  | fails errno =>
    cases run
    rfl
  | takes room =>
    by_cases none : data.take room = []
    · simp only [none, if_true] at run
      cases run
      rfl
    · simp only [none, if_false, drain, bind_eq_ok] at run
      obtain ⟨out, _, run⟩ := run
      split at run
      · obtain ⟨changed, _, run⟩ := bind_eq_ok.mp run
        cases run
        rfl
      · cases run
        rfl

end Endpoint
end Yamq
