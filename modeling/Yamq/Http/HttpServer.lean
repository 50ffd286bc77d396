import Yamq.Http.HttpContext
import Yamq.Http.HttpResponse
import Yamq.Tcp.Outgoing

/-! `rpc/http/http_server.cpp`. What `onMessage` and `onRequest` do to the connection is the list of
the calls they make on it; `Served` carries those out on the connection's loop thread. -/
namespace Yamq

abbrev HttpCallback := HttpRequest → HttpResponse → HttpResponse

def defaultHttpCallback : HttpCallback := fun _ resp =>
  ((resp.setStatusCode .k404NotFound).setStatusMessage (ascii "Not Found")).setCloseConnection true

def HttpRequest.getHeader (r : HttpRequest) (field : Bytes) : Bytes := (r.headers.lookup field).getD []

inductive ConnCall where
  | send (data : Bytes)
  | forceClose
deriving DecidableEq

namespace HttpServer

/-- The local `close` of `onRequest`. -/
def wantsClose (req : HttpRequest) : Bool :=
  let connection := req.getHeader (ascii "Connection")
  connection == ascii "close" || (req.version == .kHttp10 && connection != ascii "Keep-Alive")

def response (cb : HttpCallback) (req : HttpRequest) : HttpResponse := cb req (.new (wantsClose req))

def onRequest (cb : HttpCallback) (req : HttpRequest) : Except Fault (List ConnCall) := do
  let buf ← (response cb req).appendToBuffer (.new IoBuffer.kInitialSize)
  let data ← IoBuffer.load buf.buf buf.readerIndex (toSize buf.readableBytes)
  return .send data :: if (response cb req).closeConnection then [.forceClose] else []

def badRequest : Bytes := ascii "HTTP/1.1 400 Bad Request\r\n\r\n"

/-- The end of `onMessage`: one request at most is answered in one call. -/
def answer (cb : HttpCallback) (ctx : HttpContext) : Except Fault (List ConnCall × HttpContext) :=
  if ctx.gotAll then do return (← onRequest cb ctx.request, ctx.reset)
  else .ok ([], ctx)

/-- `onMessage` over a parser. -/
def onMessage (parse : HttpContext → IoBuffer → Except Fault (Bool × HttpContext × IoBuffer))
    (cb : HttpCallback) (ctx : HttpContext) (buf : IoBuffer) :
    Except Fault (List ConnCall × HttpContext × IoBuffer) := do
  let (ok, ctx, buf) ← parse ctx buf
  let refused := if ok then [] else [.send badRequest, .forceClose]
  let (calls, ctx) ← answer cb ctx
  return (refused ++ calls, ctx, buf)

end HttpServer

/-- A connection of an `HttpServer`, and whether its descriptor has been passed to `::close`. -/
structure Served where
  endpoint : Endpoint
  closed : Bool := false

namespace Served

def setStatus (s : Served) (status : ConnectionStatus) : Served :=
  { s with endpoint := { s.endpoint with conn := { s.endpoint.conn with status := status } } }

/-- `ForceClose` on the loop thread. The close callback is `multi::Server::closeConnect`; the user's
own callback is not set. -/
def forceClose (s : Served) : Except Fault Served :=
  if s.endpoint.conn.status ≠ .CONNECTED then .ok s
  else do
    let s := s.setStatus .CLOSING
    let regs ← s.endpoint.regs.removeChannel s.endpoint.conn.toChannel
    let s := { s with endpoint := { s.endpoint with regs := regs }, closed := true }
    return s.setStatus .CLOSED

def call (s : Served) (result : SendResult) : ConnCall → Except Fault Served
  | .send data => do return { s with endpoint := ← s.endpoint.send data result }
  | .forceClose => s.forceClose

/-- The calls of one `onMessage`, of which at most one is a `Send`. -/
def perform (s : Served) (result : SendResult) (calls : List ConnCall) : Except Fault Served :=
  calls.foldlM (fun s c => s.call result c) s

end Served

namespace HttpServer

/-- A buffered response is what is sent. -/
theorem onRequest_sends {cb : HttpCallback} {req : HttpRequest} (buffered : (response cb req).Buffered) :
    onRequest cb req = .ok (.send (response cb req).bytes ::
      if (response cb req).closeConnection then [.forceClose] else []) := by
  have small := (HttpResponse.buffered_iff _).mp buffered
  obtain ⟨out, run, whole⟩ := buffered
  obtain ⟨out', run', written, _⟩ := IoBuffer.appendAll_written (response cb req).pieces
    (IoBuffer.new_written IoBuffer.kInitialSize (by decide))
    (by simp only [IoBuffer.new, IoBuffer.kCheapPrepend, HttpResponse.bytes] at small ⊢; omega)
  cases run'.symm.trans run
  rw [onRequest, run, ok_bind, IoBuffer.load_contents written.toLayout, ok_bind, whole]
  rfl

end HttpServer

/-! Closing responses. -/

namespace Endpoint

/-- What the kernel takes directly from the data of a `send`. -/
def takenNow (e : Endpoint) (data : Bytes) : SendResult → Bytes
  | .takes room => if e.idle then data.take room else []
  | .fails _ => []

theorem buffer_accepted {e e' : Endpoint} {remaining : Bytes} (run : e.buffer remaining = .ok e') :
    e'.accepted = e.accepted ∧ e'.conn.status = e.conn.status := by
  unfold buffer at run
  split at run
  · cases run
    exact ⟨rfl, rfl⟩
  · obtain ⟨out, _, run⟩ := bind_eq_ok.mp run
    by_cases flag : e.conn.isWritable = true
    · rw [if_pos flag] at run
      cases run
      exact ⟨rfl, rfl⟩
    · rw [if_neg flag] at run
      obtain ⟨channel, _, run⟩ := bind_eq_ok.mp run
      cases run
      exact ⟨rfl, rfl⟩

theorem send_accepted {e e' : Endpoint} {data : Bytes} {result : SendResult}
    (connected : e.conn.status = .CONNECTED) (run : e.send data result = .ok e') :
    e'.accepted = e.accepted ++ e.takenNow data result ∧ e'.conn.status = .CONNECTED := by
  simp only [send, connected, ne_eq, not_true, if_false] at run
  cases idle : e.idle with
  | false =>
    rw [idle, if_neg Bool.false_ne_true] at run
    obtain ⟨accepted, status⟩ := buffer_accepted run
    refine ⟨?_, status.trans connected⟩
    cases result <;> simp [takenNow, idle, accepted]
  | true =>
    rw [idle, if_pos rfl] at run
    cases result with
    | takes room =>
      obtain ⟨accepted, status⟩ := buffer_accepted run
      exact ⟨by simpa [takenNow, idle] using accepted, status.trans connected⟩
    | fails errno =>
      simp only at run
      split at run
      · cases run
      · obtain ⟨accepted, status⟩ := buffer_accepted run
        exact ⟨by simpa [takenNow] using accepted, status.trans connected⟩

end Endpoint

namespace Served

open HttpServer

/-- `onRequest` closes the descriptor, and by then the kernel has accepted all that waited and the
whole response. -/
def DeliversWhole (s : Served) (cb : HttpCallback) (req : HttpRequest) (result : SendResult) : Prop :=
  (response cb req).Buffered ∧ ∃ calls s', onRequest cb req = .ok calls ∧
    s.perform result calls = .ok s' ∧ s'.closed = true ∧
    s'.endpoint.accepted =
      s.endpoint.accepted ++ s.endpoint.conn.outputBuf.contents ++ (response cb req).bytes

/-- The bytes that the kernel has when the descriptor is closed. -/
theorem perform_closing {s s' : Served} {data : Bytes} {result : SendResult}
    (connected : s.endpoint.conn.status = .CONNECTED)
    (run : s.perform result [.send data, .forceClose] = .ok s') :
    s'.endpoint.accepted = s.endpoint.accepted ++ s.endpoint.takenNow data result := by
  simp only [perform, List.foldlM_cons, List.foldlM_nil, call, bind_eq_ok] at run
  obtain ⟨t, ⟨e, sent, same⟩, u, closed, run⟩ := run
  cases same
  cases run
  obtain ⟨accepted, status⟩ := Endpoint.send_accepted connected sent
  simp only [forceClose, status, ne_eq, not_true, if_false, bind_eq_ok] at closed
  obtain ⟨regs, _, closed⟩ := closed
  cases closed
  exact accepted

/-- For every response that closes, of any length, on every connection whose outgoing stream is
intact, and for every result of `::send`: the response is delivered whole exactly when it fits the
local buffer, nothing waits in the output buffer, and the kernel takes all of it at once. -/
theorem delivers_whole_iff (s : Served) (given : Bytes) (start : s.endpoint.Invariant given)
    (registered : s.endpoint.regs.channels s.endpoint.conn.fd = some s.endpoint.conn.self)
    (cb : HttpCallback) (req : HttpRequest) (closing : (response cb req).closeConnection = true)
    (result : SendResult) : s.DeliversWhole cb req result ↔
      (response cb req).bytes.length + 8 < 2147483648 ∧ s.endpoint.idle = true ∧
        ∃ room, result = .takes room ∧ (response cb req).bytes.length ≤ room := by
  constructor
  · rintro ⟨buffered, calls, s', made, run, _, accepted⟩
    rw [onRequest_sends buffered, if_pos closing] at made
    cases made
    have taken := perform_closing start.status run
    rw [accepted, List.append_assoc] at taken
    have whole := List.append_cancel_left taken
    have some_ := (response cb req).bytes_ne_nil
    refine ⟨(HttpResponse.buffered_iff _).mp buffered, ?_⟩
    cases idle : s.endpoint.idle with
    | false => cases result <;> simp [Endpoint.takenNow, idle, some_] at whole
    | true =>
      refine ⟨rfl, ?_⟩
      cases result with
      | fails errno => simp [Endpoint.takenNow, some_] at whole
      | takes room =>
        have length := congrArg List.length whole
        simp only [Endpoint.takenNow, idle, if_true, List.length_append, List.length_take] at length
        exact ⟨room, rfl, by omega⟩
  · rintro ⟨small, idle, room, rfl, enough⟩
    have buffered := (HttpResponse.buffered_iff _).mpr small
    have watched := start.watched
    have quiet := (Endpoint.idle_iff start).mp idle
    have known : s.endpoint.regs.interest s.endpoint.conn.fd ≠ none := by simp [watched.interest]
    have run : s.perform (.takes room) (.send (response cb req).bytes ::
        if (response cb req).closeConnection then [.forceClose] else []) =
          .ok ⟨⟨{ s.endpoint.conn with status := .CLOSED },
            ⟨(s.endpoint.regs.watch s.endpoint.conn.fd none).interest,
              fun d => if d = s.endpoint.conn.fd then none else s.endpoint.regs.channels d⟩,
            s.endpoint.accepted ++ (response cb req).bytes⟩, true⟩ := by
      simp only [closing, if_true, perform, List.foldlM_cons, List.foldlM_nil, call, Endpoint.send,
        start.status, ne_eq, not_true, if_false, idle, List.take_of_length_le enough,
        List.drop_of_length_le enough, Endpoint.buffer, ok_bind, pure_ok, forceClose, setStatus,
        Registrations.removeChannel, registered, Registrations.remove, known]
      rfl
    refine ⟨buffered, _, _, onRequest_sends buffered, run, rfl, ?_⟩
    rw [quiet, List.append_nil]

/-- The connection of `Endpoint.opened`. -/
def opened : Served := { endpoint := Endpoint.opened }

/-- The default response is 45 bytes long. -/
theorem delivers_whole_short :
    opened.DeliversWhole defaultHttpCallback {} (.takes 100) := by
  refine (delivers_whole_iff opened [] Endpoint.opened_established.invariant rfl _ _ rfl _).mpr ?_
  refine ⟨by decide, by decide, 100, rfl, by decide⟩

/-- The kernel takes ten bytes, the rest waits, and the descriptor is closed. -/
theorem delivers_part : (response defaultHttpCallback {}).closeConnection = true ∧
    ¬ opened.DeliversWhole defaultHttpCallback {} (.takes 10) := by
  refine ⟨rfl, ?_⟩
  rintro ⟨buffered, calls, s', made, run, _, accepted⟩
  rw [onRequest_sends buffered] at made
  cases made
  have taken := perform_closing rfl run
  rw [accepted] at taken
  revert taken
  decide

end Served
end Yamq
