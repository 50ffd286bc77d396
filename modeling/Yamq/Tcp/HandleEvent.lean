import Yamq.Lib.Traced
import Yamq.Tcp.Closing

/-! `Channel::HandleEvent` of a connection, with the calls that it makes in between: `::send`,
`UpdateChannel`, and where the connection becomes CLOSED. Without the calls it is what `Lifecycle`
has. -/
namespace Yamq

inductive IoCall where
  | send                           -- on the connection's descriptor
  | updateChannel (known : Bool)   -- whether the selector has the descriptor
  | closed                         -- `_status = CLOSED`
deriving DecidableEq, Repr

/-- What a message callback calls on its connection. -/
inductive UserCall where
  | send (data : Bytes) (result : SendResult)
  | forceClose
deriving DecidableEq, Repr

def UserCall.life : UserCall → LifeCall
  | .send data result => .send data result
  | .forceClose => .forceClose

/-- A callback reads the input buffer, consumes a part of it and makes calls. -/
abbrev MessageCallback := IoBuffer → IoBuffer × List UserCall

namespace Handling

open Traced

/-! On the endpoint. -/

def setEvents (e : Endpoint) (events : Flags) : Traced IoCall Fault Endpoint := do
  if e.conn.attached then note (.updateChannel (e.regs.interest e.conn.fd).isSome)
  lift do return e.setChannel (← e.conn.setEvents e.regs events)

def buffer (e : Endpoint) (remaining : Bytes) : Traced IoCall Fault Endpoint :=
  if remaining = [] then pure e
  else do
    let out ← lift (e.conn.outputBuf.put remaining)
    let e := { e with conn := { e.conn with outputBuf := out } }
    if e.conn.isWritable then return e
    else setEvents e (e.conn.events ||| EV_WRITE)

def send (e : Endpoint) (data : Bytes) (result : SendResult) : Traced IoCall Fault Endpoint :=
  if e.conn.status ≠ .CONNECTED then pure e
  else if e.idle then do
    note .send
    match result with
    | .takes room => buffer { e with accepted := e.accepted ++ data.take room } (data.drop room)
    | .fails errno =>
      if errno = .EPIPE ∨ errno = .ECONNRESET then lift (.error .abort) else buffer e data
  else buffer e data

def drain (e : Endpoint) (taken : Bytes) : Traced IoCall Fault Endpoint := do
  let out ← lift (e.conn.outputBuf.seek (toInt taken.length))
  let e := { e with conn := { e.conn with outputBuf := out }, accepted := e.accepted ++ taken }
  if out.readableBytes = 0 then setEvents e (e.conn.events &&& ~~~EV_WRITE)
  else return e

def handleWrite (e : Endpoint) (result : SendResult) : Traced IoCall Fault Endpoint := do
  note .send
  let out := e.conn.outputBuf
  let data ← lift (IoBuffer.load out.buf out.readerIndex (toSize out.readableBytes))
  match result with
  | .takes room => if data.take room = [] then return e else drain e (data.take room)
  | .fails _ => return e

/-! On the connection. -/

def onEndpoint (c : Lifecycle) (run : Traced IoCall Fault Endpoint) : Traced IoCall Stopped Lifecycle :=
  ⟨run.calls, c.lift run.outcome⟩

def closeConnect (serving : Serving) (c : Lifecycle) : Traced IoCall Stopped Lifecycle :=
  let c := { c with callbacks := c.callbacks + 1 }
  match serving with
  | .single => do
    let c ← onEndpoint c (setEvents c.endpoint EV_NONE)
    let c ← lift c.remove
    return { c with held := false }
  | .alone => do
    let c ← lift c.remove
    return { c with held := false }
  | .worker => do
    let c ← lift c.remove
    return { c with erasing := c.erasing + 1 }

def close (serving : Serving) (c : Lifecycle) : Traced IoCall Stopped Lifecycle := do
  let c ← closeConnect serving (c.setStatus .CLOSING)
  note .closed
  return { c with closes := c.closes + 1 }.setStatus .CLOSED

def forceClose (serving : Serving) (c : Lifecycle) : Traced IoCall Stopped Lifecycle :=
  if c.status ≠ .CONNECTED then pure c else close serving c

/-- `HandleRead` when `readv` returns 0. -/
def handleEof (serving : Serving) (c : Lifecycle) : Traced IoCall Stopped Lifecycle := do
  let c ← closeConnect serving (c.setStatus .CLOSING)
  note .closed
  return c.setStatus .CLOSED

def userCall (serving : Serving) (c : Lifecycle) : UserCall → Traced IoCall Stopped Lifecycle
  | .send data result => onEndpoint c (send c.endpoint data result)
  | .forceClose => forceClose serving c

def setInput (c : Lifecycle) (input : IoBuffer) : Lifecycle :=
  { c with endpoint := { c.endpoint with conn := { c.endpoint.conn with inputBuf := input } } }

/-- The call of `_message_cb`. -/
def message (serving : Serving) (messageCb : MessageCallback) (c : Lifecycle) :
    Traced IoCall Stopped Lifecycle :=
  let (input, calls) := messageCb c.endpoint.conn.inputBuf
  calls.foldlM (userCall serving) (setInput c input)

def retrieve (c : Lifecycle) (result : IoBuffer.ReadResult) : Except Stopped (Nat × Lifecycle) :=
  match c.endpoint.conn.inputBuf.retrieve result with
  | .ok (n, input) => .ok (n, setInput c input)
  | .error f => .error ⟨c, f⟩

def handleRead (serving : Serving) (messageCb : MessageCallback) (result : IoBuffer.ReadResult)
    (c : Lifecycle) : Traced IoCall Stopped Lifecycle := do
  let (n, c) ← lift (retrieve c result)
  if 0 < n then message serving messageCb c else handleEof serving c

def onRead (serving : Serving) (messageCb : MessageCallback) (result : IoBuffer.ReadResult)
    (revents : Flags) (c : Lifecycle) : Traced IoCall Stopped Lifecycle :=
  if revents &&& EV_READ ≠ 0 then handleRead serving messageCb result c else pure c

def onWrite (sent : SendResult) (revents : Flags) (c : Lifecycle) : Traced IoCall Stopped Lifecycle :=
  if revents &&& EV_WRITE ≠ 0 then onEndpoint c (handleWrite c.endpoint sent) else pure c

/-- `HandleEvent`. A connection has the empty `HandleError` of `Channel`. -/
def handleEvent (serving : Serving) (messageCb : MessageCallback) (result : IoBuffer.ReadResult)
    (sent : SendResult) (revents : Flags) (c : Lifecycle) : Traced IoCall Stopped Lifecycle :=
  if revents = EV_NONE then pure c
  else do
    let c ← onRead serving messageCb result revents c
    onWrite sent revents c

/-! The same functions without the calls. -/

theorem setEvents_outcome (e : Endpoint) (events : Flags) :
    (setEvents e events).outcome = do return e.setChannel (← e.conn.setEvents e.regs events) := by
  unfold setEvents
  cases e.conn.attached <;> simp

theorem buffer_outcome (e : Endpoint) (remaining : Bytes) :
    (buffer e remaining).outcome = e.buffer remaining := by
  unfold buffer Endpoint.buffer
  split
  · rfl
  · simp only [bind_outcome, lift_outcome]
    congr 1
    funext out
    split
    · rfl
    · exact setEvents_outcome _ _

theorem send_outcome (e : Endpoint) (data : Bytes) (result : SendResult) :
    (send e data result).outcome = e.send data result := by
  unfold send Endpoint.send
  split
  · rfl
  · split
    · cases result with
      | takes room => exact buffer_outcome _ _
      | fails errno =>
        simp only [bind_outcome, note_outcome, ok_bind]
        split
        · rfl
        · exact buffer_outcome _ _
    · exact buffer_outcome _ _

theorem handleWrite_outcome (e : Endpoint) (result : SendResult) :
    (handleWrite e result).outcome = e.handleWrite result := by
  unfold handleWrite Endpoint.handleWrite
  simp only [bind_outcome, note_outcome, ok_bind, lift_outcome]
  congr 1
  funext data
  cases result with
  | fails errno => rfl
  | takes room =>
    by_cases none : data.take room = []
    · simp only [none, if_true, pure_outcome, pure_ok]
    · simp only [none, if_false, drain, Endpoint.drain, bind_outcome, lift_outcome]
      congr 1
      funext out
      split
      · exact setEvents_outcome _ _
      · rfl

theorem closeConnect_outcome (serving : Serving) (c : Lifecycle) :
    (closeConnect serving c).outcome = c.closeConnect serving := by
  cases serving with
  | single =>
    have changed (d : Lifecycle) :
        (onEndpoint d (setEvents d.endpoint EV_NONE)).outcome = d.setEvents EV_NONE := by
      rw [onEndpoint, setEvents_outcome]
      rfl
    simp only [closeConnect, Lifecycle.closeConnect, bind_outcome, changed, lift_outcome, pure_outcome,
      pure_ok]
  | alone | worker =>
    simp only [closeConnect, Lifecycle.closeConnect, bind_outcome, lift_outcome, pure_outcome, pure_ok]

theorem forceClose_outcome (serving : Serving) (c : Lifecycle) :
    (forceClose serving c).outcome = c.forceClose serving := by
  unfold forceClose Lifecycle.forceClose
  split
  · rfl
  · simp only [close, Lifecycle.close, bind_outcome, closeConnect_outcome, note_outcome, ok_bind,
      pure_outcome, pure_ok]

theorem handleEof_outcome (serving : Serving) (c : Lifecycle) :
    (handleEof serving c).outcome = c.handleEof serving := by
  simp only [handleEof, Lifecycle.handleEof, bind_outcome, closeConnect_outcome, note_outcome, ok_bind,
    pure_outcome, pure_ok]

theorem message_outcome (serving : Serving) (messageCb : MessageCallback) (c : Lifecycle) :
    (message serving messageCb c).outcome = (messageCb c.endpoint.conn.inputBuf).2.foldlM
      (fun c call => call.life.run serving c) (setInput c (messageCb c.endpoint.conn.inputBuf).1) := by
  have each (c : Lifecycle) (call : UserCall) :
      (userCall serving c call).outcome = call.life.run serving c := by
    cases call with
    | send data result =>
      rw [userCall, onEndpoint, send_outcome]
      rfl
    | forceClose => exact forceClose_outcome serving c
  rw [message, foldlM_outcome]
  simp only [each]

theorem handleRead_outcome (serving : Serving) (messageCb : MessageCallback)
    (result : IoBuffer.ReadResult) (c : Lifecycle) :
    (handleRead serving messageCb result c).outcome = retrieve c result >>= fun next =>
      if 0 < next.1 then (message serving messageCb next.2).outcome
      else LifeCall.handleEof.run serving next.2 := by
  rw [handleRead, bind_outcome, lift_outcome]
  congr 1
  funext next
  obtain ⟨n, b⟩ := next
  simp only
  split
  · rfl
  · exact handleEof_outcome serving b

/-- An event without its calls is made of those that `Lifecycle` has. -/
theorem handleEvent_outcome (serving : Serving) (messageCb : MessageCallback)
    (result : IoBuffer.ReadResult) (sent : SendResult) {revents : Flags} (some_ : revents ≠ EV_NONE)
    (c : Lifecycle) :
    (handleEvent serving messageCb result sent revents c).outcome =
      (if revents &&& EV_READ ≠ 0 then (handleRead serving messageCb result c).outcome else .ok c) >>=
        fun c =>
          if revents &&& EV_WRITE ≠ 0 then (LifeCall.handleWrite sent).run serving c else .ok c := by
  rw [handleEvent, if_neg some_, bind_outcome, onRead]
  congr 1
  · split <;> rfl
  · funext c
    unfold onWrite
    split
    · rw [onEndpoint, handleWrite_outcome]
      rfl
    · rfl

/-! What is called before the connection is CLOSED, and behind that in a callback. -/

/-- No call of the computation makes the connection CLOSED. -/
abbrev Open {α ε : Type} (x : Traced IoCall ε α) : Prop := Every (· ≠ .closed) x

theorem onEndpoint_open {c : Lifecycle} {run : Traced IoCall Fault Endpoint} (stays : Open run) :
    Open (onEndpoint c run) := ⟨stays.each⟩

theorem setEvents_open (e : Endpoint) (events : Flags) : Open (setEvents e events) := by
  unfold setEvents
  split
  · apply Every.bind (every_note nofun)
    intro _ _
    exact every_lift _
  · exact every_lift _

theorem buffer_open (e : Endpoint) (remaining : Bytes) : Open (buffer e remaining) := by
  unfold buffer
  split
  · exact every_pure e
  · apply Every.bind (every_lift _)
    intro out _
    simp only
    split
    · exact every_pure _
    · exact setEvents_open _ _

theorem send_open (e : Endpoint) (data : Bytes) (result : SendResult) : Open (send e data result) := by
  unfold send
  split
  · exact every_pure e
  · split
    · apply Every.bind (every_note nofun)
      intro _ _
      cases result with
      | takes room => exact buffer_open _ _
      | fails errno =>
        simp only
        split
        · exact every_lift _
        · exact buffer_open _ _
    · exact buffer_open _ _

theorem drain_open (e : Endpoint) (taken : Bytes) : Open (drain e taken) := by
  unfold drain
  apply Every.bind (every_lift _)
  intro out _
  simp only
  split
  · exact setEvents_open _ _
  · exact every_pure _

theorem handleWrite_open (e : Endpoint) (result : SendResult) : Open (handleWrite e result) := by
  unfold handleWrite
  apply Every.bind (every_note nofun)
  intro _ _
  apply Every.bind (every_lift _)
  intro data _
  cases result with
  | fails errno => exact every_pure e
  | takes room =>
    simp only
    split
    · exact every_pure e
    · exact drain_open _ _

theorem closeConnect_open (serving : Serving) (c : Lifecycle) : Open (closeConnect serving c) := by
  have removed (b : Lifecycle) (f : Lifecycle → Lifecycle) :
      Open (do let b ← lift b.remove; return f b : Traced IoCall Stopped Lifecycle) := by
    apply Every.bind (every_lift _)
    intro _ _
    exact every_pure _
  cases serving with
  | single =>
    apply Every.bind
    · exact onEndpoint_open (setEvents_open c.endpoint EV_NONE)
    · intro b _
      exact removed b fun b => { b with held := false }
  | alone => exact removed _ fun b => { b with held := false }
  | worker => exact removed _ fun b => { b with erasing := b.erasing + 1 }

/-- The connection stays open, or its closing is the last call. -/
def ClosesLast (x : Traced IoCall Stopped Lifecycle) : Prop :=
  Open x ∨ ∃ front c, x.calls = front ++ [.closed] ∧ (∀ call ∈ front, call ≠ .closed) ∧
    x.outcome = .ok c ∧ c.status = .CLOSED

theorem closesLast_behind {α : Type} {x : Traced IoCall Stopped α}
    {f : α → Traced IoCall Stopped Lifecycle} (before : Open x)
    (next : ∀ a, x.outcome = .ok a → ClosesLast (f a)) : ClosesLast (x >>= f) := by
  cases returns : x.outcome with
  | error s => exact .inl (before.stopped returns)
  | ok a =>
    rcases next a returns with still | ⟨front, c, made, between, returns', closed⟩
    · left
      apply before.bind
      intro other returned
      cases returns.symm.trans returned
      exact still
    · refine .inr ⟨x.calls ++ front, c, ?_, ?_, ?_, closed⟩
      · rw [bind_calls returns, made, List.append_assoc]
      · intro call member
        rcases List.mem_append.mp member with first | second
        · exact before.each call first
        · exact between call second
      · rw [bind_outcome, returns]
        exact returns'

/-- Both ways to close. -/
theorem closesLast_close (serving : Serving) (c : Lifecycle) (f : Lifecycle → Lifecycle)
    (ends : ∀ c, (f c).status = .CLOSED) :
    ClosesLast (do let c ← closeConnect serving c; note .closed; return f c) := by
  apply closesLast_behind (closeConnect_open serving c)
  intro b _
  exact .inr ⟨[], f b, rfl, nofun, rfl, ends b⟩

theorem forceClose_closesLast (serving : Serving) (c : Lifecycle) :
    ClosesLast (forceClose serving c) := by
  unfold forceClose
  split
  · exact .inl (every_pure c)
  · exact closesLast_close serving (c.setStatus .CLOSING)
      (fun c => { c with closes := c.closes + 1 }.setStatus .CLOSED) (fun _ => rfl)

theorem handleEof_closesLast (serving : Serving) (c : Lifecycle) : ClosesLast (handleEof serving c) :=
  closesLast_close serving (c.setStatus .CLOSING) (fun c => c.setStatus .CLOSED) fun _ => rfl

theorem userCall_closesLast (serving : Serving) (c : Lifecycle) (call : UserCall) :
    ClosesLast (userCall serving c call) := by
  cases call with
  | send data result => exact .inl (onEndpoint_open (send_open c.endpoint data result))
  | forceClose => exact forceClose_closesLast serving c

/-- A connection that is down gives up what it is to send, and is not closed again. -/
theorem userCall_down (serving : Serving) {c : Lifecycle} (down : c.status ≠ .CONNECTED)
    (call : UserCall) : userCall serving c call = pure c := by
  cases call with
  | send data result =>
    have status : c.endpoint.conn.status ≠ .CONNECTED := down
    have kept : send c.endpoint data result = pure c.endpoint := if_pos status
    rw [userCall, kept]
    rfl
  | forceClose => exact if_pos down

theorem userCalls_down (serving : Serving) {c : Lifecycle} (down : c.status ≠ .CONNECTED)
    (calls : List UserCall) : calls.foldlM (userCall serving) c = pure c := by
  induction calls with
  | nil => rfl
  | cons call calls ih =>
    rw [List.foldlM_cons, userCall_down serving down]
    exact ih

/-- Whatever a callback calls, nothing follows behind the close. -/
theorem userCalls_closesLast (serving : Serving) (calls : List UserCall) (c : Lifecycle) :
    ClosesLast (calls.foldlM (userCall serving) c) := by
  induction calls generalizing c with
  | nil => exact .inl (every_pure c)
  | cons call calls ih =>
    rw [List.foldlM_cons]
    rcases userCall_closesLast serving c call with
      before | ⟨front, b, made, before, returns, closed⟩
    · exact closesLast_behind before fun b _ => ih b
    · right
      have rest := userCalls_down serving (c := b) (by rw [closed]; nofun) calls
      refine ⟨front, b, ?_, before, ?_, closed⟩
      · rw [bind_calls returns, rest, made, pure_calls, List.append_nil]
      · rw [bind_outcome, returns, ok_bind, rest]
        rfl

theorem handleRead_closesLast (serving : Serving) (messageCb : MessageCallback)
    (result : IoBuffer.ReadResult) (c : Lifecycle) :
    ClosesLast (handleRead serving messageCb result c) := by
  unfold handleRead
  apply closesLast_behind (every_lift _)
  intro next _
  obtain ⟨n, b⟩ := next
  simp only
  split
  · exact userCalls_closesLast serving _ _
  · exact handleEof_closesLast serving b

/-! The whole event. -/

/-- Once the connection is CLOSED, nothing is sent on its descriptor, and no selector is told to
change a descriptor that it does not have. -/
def Quiet (calls : List IoCall) : Prop :=
  ∀ before behind, calls = before ++ .closed :: behind →
    .send ∉ behind ∧ .updateChannel false ∉ behind

theorem quiet_last {front : List IoCall} (before : ∀ call ∈ front, call ≠ .closed) :
    Quiet (front ++ [.closed]) := by
  intro left behind same
  have none : behind = [] := by
    rcases List.append_eq_append_iff.mp same with ⟨mid, rfl, rest⟩ | ⟨mid, rfl, rest⟩
    · cases mid with
      | nil => exact (List.cons.inj rest).2.symm
      | cons x mid => simp at rest
    · cases mid with
      | nil => exact (List.cons.inj rest).2
      | cons x mid =>
        have first := (List.cons.inj rest).1
        exact absurd first.symm (before x (by simp))
  rw [none]
  exact ⟨nofun, nofun⟩

theorem quiet_open {x : Traced IoCall Stopped Lifecycle} (stays : Open x) : Quiet x.calls := by
  intro before behind same
  have closed : .closed ∈ x.calls := by
    rw [same]
    exact List.mem_append_right _ (List.mem_cons_self ..)
  exact absurd rfl (stays.each _ closed)

theorem onWrite_open (sent : SendResult) (revents : Flags) (c : Lifecycle) :
    Open (onWrite sent revents c) := by
  unfold onWrite
  split
  · exact onEndpoint_open (handleWrite_open c.endpoint sent)
  · exact every_pure c

/-- What spoils an event: a `HandleRead` that closes, in front of a `HandleWrite`. -/
theorem quiet_iff (serving : Serving) (messageCb : MessageCallback) (result : IoBuffer.ReadResult)
    (sent : SendResult) (revents : Flags) (c : Lifecycle) :
    Quiet (handleEvent serving messageCb result sent revents c).calls ↔
      ¬ (revents &&& EV_READ ≠ 0 ∧ .closed ∈ (handleRead serving messageCb result c).calls ∧
        revents &&& EV_WRITE ≠ 0) := by
  unfold handleEvent
  by_cases nothing : revents = EV_NONE
  · rw [if_pos nothing, nothing]
    exact iff_of_true (quiet_open (every_pure c)) fun spoils => spoils.1 (by decide)
  · rw [if_neg nothing, onRead]
    by_cases reads : revents &&& EV_READ = 0
    · rw [if_neg (not_not_intro reads)]
      refine iff_of_true (quiet_open ?_) fun spoils => spoils.1 reads
      apply Every.bind (every_pure c)
      intro b _
      exact onWrite_open sent revents b
    · rw [if_pos reads]
      rcases handleRead_closesLast serving messageCb result c with
        stays | ⟨front, b, made, before, returns, closed⟩
      · refine iff_of_true (quiet_open ?_) fun spoils => absurd rfl (stays.each _ spoils.2.1)
        apply stays.bind
        intro b _
        exact onWrite_open sent revents b
      · have closes : .closed ∈ front ++ [.closed] := List.mem_append_right _ (List.mem_cons_self ..)
        rw [bind_calls returns, made, onWrite]
        by_cases writes : revents &&& EV_WRITE = 0
        · rw [if_neg (not_not_intro writes), pure_calls, List.append_nil]
          exact iff_of_true (quiet_last before) fun spoils => spoils.2.2 writes
        · rw [if_pos writes]
          refine iff_of_false ?_ (not_not_intro ⟨reads, closes, writes⟩)
          intro quiet
          have late := (quiet front (handleWrite b.endpoint sent).calls (List.append_assoc ..)).1
          exact late (List.mem_cons_self ..)

/-- For every connection, mask and outcome of the calls: where `HandleRead` closes the connection, the
rest of `HandleEvent` leaves it alone exactly when the mask is without EV_WRITE. -/
theorem quiet_behind_close_iff (serving : Serving) (messageCb : MessageCallback)
    (result : IoBuffer.ReadResult) (sent : SendResult) (revents : Flags) (c : Lifecycle)
    (reads : revents &&& EV_READ ≠ 0)
    (closes : .closed ∈ (handleRead serving messageCb result c).calls) :
    Quiet (handleEvent serving messageCb result sent revents c).calls ↔ revents &&& EV_WRITE = 0 := by
  rw [quiet_iff]
  constructor
  · intro spared
    by_contra writes
    exact spared ⟨reads, closes, writes⟩
  · intro none spoils
    exact spoils.2.2 none

/-! When `HandleRead` closes, and what the late `HandleWrite` can do then. -/

theorem remove_returns {c : Lifecycle} (registered : c.Registered)
    (known : c.endpoint.regs.interest c.endpoint.conn.fd ≠ none) : ∃ b, c.remove = .ok b := by
  have here : c.endpoint.regs.channels c.endpoint.conn.fd = some c.endpoint.conn.self := registered
  cases removed : c.remove with
  | ok b => exact ⟨b, rfl⟩
  | error s =>
    simp [Lifecycle.remove, Lifecycle.setRegs, Registrations.removeChannel, here, Registrations.remove,
      known, Lifecycle.lift] at removed

/-- The close callback goes through for a channel that is watched and found. -/
theorem closeConnect_returns {c : Lifecycle} (watched : c.endpoint.conn.Watched c.endpoint.regs)
    (registered : c.Registered) (serving : Serving) : ∃ b, c.closeConnect serving = .ok b := by
  have known : c.endpoint.regs.interest c.endpoint.conn.fd ≠ none := by
    rw [watched.interest]
    nofun
  cases serving with
  | single =>
    obtain ⟨ch, regs, set⟩ :
        ∃ ch regs, c.endpoint.conn.setEvents c.endpoint.regs EV_NONE = .ok (ch, regs) := by
      obtain ⟨regs, set, _⟩ := Channel.watched_setEvents watched EV_NONE
      exact ⟨_, regs, set⟩
    have within := Endpoint.Within.setEvents watched.attached set
    let d := { c with callbacks := c.callbacks + 1, endpoint := c.endpoint.setChannel (ch, regs) }
    have found : d.Registered := by
      rw [Lifecycle.Registered, within.fd, within.self, within.channels]
      exact registered
    have kept : d.endpoint.regs.interest d.endpoint.conn.fd ≠ none := by
      rw [within.fd]
      intro none
      exact known (within.known.mp none)
    obtain ⟨b, removed⟩ := remove_returns found kept
    refine ⟨{ b with held := false }, ?_⟩
    simp only [Lifecycle.closeConnect, Lifecycle.setEvents, set, ok_bind, pure_ok, Lifecycle.lift]
    rw [removed]
    rfl
  | alone =>
    have again : Lifecycle.Registered { c with callbacks := c.callbacks + 1 } := registered
    obtain ⟨b, removed⟩ := remove_returns again known
    refine ⟨{ b with held := false }, ?_⟩
    simp only [Lifecycle.closeConnect, removed, ok_bind, pure_ok]
  | worker =>
    have again : Lifecycle.Registered { c with callbacks := c.callbacks + 1 } := registered
    obtain ⟨b, removed⟩ := remove_returns again known
    refine ⟨{ b with erasing := b.erasing + 1 }, ?_⟩
    simp only [Lifecycle.closeConnect, removed, ok_bind, pure_ok]

theorem note_closed (serving : Serving) {c : Lifecycle}
    (watched : c.endpoint.conn.Watched c.endpoint.regs) (registered : c.Registered)
    (f : Lifecycle → Lifecycle) :
    .closed ∈ (do let c ← closeConnect serving c; note .closed; return f c).calls := by
  obtain ⟨b, returns⟩ := closeConnect_returns watched registered serving
  rw [← closeConnect_outcome] at returns
  rw [bind_calls returns]
  exact List.mem_append_right _ (List.mem_cons_self ..)

/-- The end of file closes every connection that the loop has. -/
theorem handleEof_closes (serving : Serving) {c : Lifecycle}
    (watched : c.endpoint.conn.Watched c.endpoint.regs) (registered : c.Registered) :
    .closed ∈ (handleEof serving c).calls :=
  note_closed (c := c.setStatus .CLOSING) serving ⟨watched.attached, watched.interest⟩ registered
    fun c => c.setStatus .CLOSED

theorem forceClose_closes (serving : Serving) {c : Lifecycle} (up : c.status = .CONNECTED)
    (watched : c.endpoint.conn.Watched c.endpoint.regs) (registered : c.Registered) :
    .closed ∈ (forceClose serving c).calls := by
  rw [forceClose, if_neg (not_not_intro up)]
  exact note_closed (c := c.setStatus .CLOSING) serving ⟨watched.attached, watched.interest⟩ registered
    fun c => { c with closes := c.closes + 1 }.setStatus .CLOSED

/-- A late `HandleWrite` that gets rid of all that waits ends the process: the selector has the
descriptor no longer. -/
theorem late_write_aborts {e : Endpoint} (attached : e.conn.attached = true)
    (removed : e.regs.interest e.conn.fd = none) (small : e.conn.outputBuf.Small)
    (waits : e.conn.outputBuf.contents ≠ []) {room : Nat}
    (all : e.conn.outputBuf.contents.length ≤ room) :
    (handleWrite e (.takes room)).calls = [.send, .updateChannel false] ∧
      (handleWrite e (.takes room)).outcome = .error .abort := by
  have loaded := IoBuffer.load_contents small.toLayout
  have whole : e.conn.outputBuf.contents.take room = e.conn.outputBuf.contents :=
    List.take_of_length_le all
  obtain ⟨out, sought, small', left⟩ :=
    IoBuffer.seek_small small (Nat.le_refl e.conn.outputBuf.contents.length)
  rw [List.drop_length, ← IoBuffer.readable_zero small'.toLayout] at left
  have stops : e.conn.setEvents e.regs (e.conn.events &&& ~~~EV_WRITE) = .error .abort := by
    simp [Channel.setEvents, Channel.update, attached, Registrations.updateChannel,
      Registrations.update, removed]
  have late : handleWrite e (.takes room) = (note .send >>= fun _ =>
      note (.updateChannel false) >>= fun _ => lift (.error .abort)) := by
    simp only [handleWrite, loaded, lift_ok_bind, whole, if_neg waits, drain, sought, left, if_true]
    simp [setEvents, attached, removed, stops]
  rw [late]
  exact ⟨rfl, rfl⟩

/-- A connection that has been given two bytes, of which the kernel has taken one. -/
def halfSent : Except Stopped Lifecycle := do
  let c ← (Lifecycle.new Closing.noRegs 0 5 1).newConnect .single
  c.lift (c.endpoint.send (ascii "ab") (.takes 1))

/-- The end of file with nothing else, and with room for the other byte. -/
theorem halfSent_event : ∃ c, halfSent = .ok c ∧
    (handleRead .single (fun input => (input, [])) (.bytes []) c).calls =
      [.updateChannel true, .closed] ∧
    (handleEvent .single (fun input => (input, [])) (.bytes []) (.takes 1) (EV_READ ||| EV_WRITE)
      c).calls = [.updateChannel true, .closed, .send, .updateChannel false] := by
  have both : halfSent.toOption.map (fun c =>
      ((handleRead .single (fun input => (input, [])) (.bytes []) c).calls,
        (handleEvent .single (fun input => (input, [])) (.bytes []) (.takes 1) (EV_READ ||| EV_WRITE)
          c).calls)) =
      some ([.updateChannel true, .closed],
        [.updateChannel true, .closed, .send, .updateChannel false]) := by
    decide +kernel
  obtain ⟨c, made, same⟩ := Option.map_eq_some_iff.mp both
  exact ⟨c, toOption_eq_some.mp made, congrArg Prod.fst same, congrArg Prod.snd same⟩

theorem quiet_behind_close_read : ∃ c, halfSent = .ok c ∧
    (Quiet (handleEvent .single (fun input => (input, [])) (.bytes []) (.takes 1) EV_READ c).calls ↔
      EV_READ &&& EV_WRITE = 0) := by
  obtain ⟨c, made, read, _⟩ := halfSent_event
  refine ⟨c, made, ?_⟩
  apply quiet_behind_close_iff .single _ (.bytes []) (.takes 1) EV_READ c (by decide)
  rw [read]
  decide

/-- An end of file and room for the other byte, in one event. -/
theorem write_behind_close : ¬ ∀ (serving : Serving) (messageCb : MessageCallback)
    (result : IoBuffer.ReadResult) (sent : SendResult) (revents : Flags) (c : Lifecycle),
    revents &&& EV_READ ≠ 0 → .closed ∈ (handleRead serving messageCb result c).calls →
      Quiet (handleEvent serving messageCb result sent revents c).calls := by
  intro always
  obtain ⟨c, _, read, calls⟩ := halfSent_event
  have closes : .closed ∈ (handleRead .single (fun input => (input, [])) (.bytes []) c).calls := by
    rw [read]
    decide
  have quiet := always .single (fun input => (input, [])) (.bytes []) (.takes 1)
    (EV_READ ||| EV_WRITE) c (by decide) closes
  exact (quiet [.updateChannel true] [.send, .updateChannel false] calls).1 (List.mem_cons_self ..)

end Handling
end Yamq
