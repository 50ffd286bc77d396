import Yamq.Http.Dialogue
import Yamq.Tcp.Link

/-! A client's connection and one of an `HttpServer` at the two ends of a socket pair. The client sends
what it likes; the kernel takes and hands on bytes in any pieces on both sides. -/
namespace Yamq

open PairSearch Transition

namespace HttpContext

/-- More bytes spell more requests. -/
theorem requests_prefix (n : Nat) (ctx : HttpContext) (x future : Bytes) (short : x.length ≤ n) :
    ctx.requests x <+: ctx.requests (x ++ future) := by
  induction n using Nat.strong_induction_on generalizing ctx x with
  | _ n ih =>
    cases first : nextLine x with
    | none =>
      rw [requests, requestsIn, first]
      exact List.nil_prefix
    | some cut =>
      obtain ⟨line, rest⟩ := cut
      have shorter := nextLine_shorter first
      have later (ctx : HttpContext) : ctx.requests rest <+: ctx.requests (rest ++ future) :=
        ih (n - 1) (by omega) ctx rest (by omega)
      rw [requests_line first, requests_line (nextLine_append first future)]
      cases ctx.lineEffect line with
      | continues ctx => exact later ctx
      | completes req => exact (List.cons_prefix_cons).mpr ⟨rfl, later {}⟩
      | refuses => exact List.nil_prefix

theorem requests_mono {x y : Bytes} (part : x <+: y) : requests {} x <+: requests {} y := by
  obtain ⟨future, rfl⟩ := part
  exact requests_prefix x.length {} x future (Nat.le_refl _)

end HttpContext

/-- `localSide` is the client's. `closed` is set when the server has closed its descriptor. -/
structure HttpLink where
  link : Link
  ctx : HttpContext := {}
  calls : List ConnCall := []
  closed : Bool := false

inductive HttpAct where
  | net (a : LinkAct)                               -- the client, and the server's `HandleWrite`
  | message (count : Nat) (result : SendResult)     -- the server's `HandleRead`
deriving DecidableEq

namespace HttpLink

open HttpContext HttpServer

abbrev client (h : HttpLink) : LinkEnd := h.link .localSide

abbrev server (h : HttpLink) : LinkEnd := h.link .remoteSide

def setClient (h : HttpLink) (p : LinkEnd) : HttpLink :=
  { h with link := Function.update h.link .localSide p }

def setServer (h : HttpLink) (p : LinkEnd) : HttpLink :=
  { h with link := Function.update h.link .remoteSide p }

section
variable (h : HttpLink) (p : LinkEnd)

@[simp] theorem client_setClient : (h.setClient p).client = p :=
  @Function.update_self Side (fun _ => LinkEnd) _ .localSide p h.link

@[simp] theorem server_setClient : (h.setClient p).server = h.server :=
  Function.update_of_ne (nofun : Side.remoteSide ≠ .localSide) p h.link

@[simp] theorem client_setServer : (h.setServer p).client = h.client :=
  Function.update_of_ne (nofun : Side.localSide ≠ .remoteSide) p h.link

@[simp] theorem server_setServer : (h.setServer p).server = p :=
  @Function.update_self Side (fun _ => LinkEnd) _ .remoteSide p h.link

end

/-- `readv` and `onMessage`. What the parser takes off the input buffer counts as consumed. -/
def receive (cb : HttpCallback) (h : HttpLink) (count : Nat) : Except Fault (List ConnCall × HttpLink) := do
  let link ← h.link.step (.handleRead .remoteSide count)
  let p := link .remoteSide
  let (calls, ctx, buf) ← onMessage parseRequest cb h.ctx p.input
  let parsed := p.input.contents.take (p.input.contents.length - buf.contents.length)
  return (calls, HttpLink.setServer { h with link := link, ctx := ctx, calls := h.calls ++ calls }
    { p.setInput buf with consumed := p.consumed ++ parsed })

def perform (result : SendResult) (h : HttpLink) : ConnCall → Except Fault HttpLink
  | .send data => do return { h with link := ← h.link.step (.send .remoteSide data result) }
  | .forceClose => do
    let s ← Served.forceClose ⟨h.server.endpoint, h.closed⟩
    return { h.setServer { h.server with endpoint := s.endpoint } with closed := s.closed }

def step (cb : HttpCallback) (h : HttpLink) : HttpAct → Except Fault HttpLink
  | .net a => do return { h with link := ← h.link.step a }
  | .message count result => do
    let (calls, h) ← h.receive cb count
    calls.foldlM (perform result) h

/-- The server's loop runs no handler once the channel is removed. -/
def Ready (h : HttpLink) : HttpAct → Prop
  | .net (.handleWrite .remoteSide result) => h.closed = false ∧ h.link.Ready (.handleWrite .remoteSide result)
  | .net a => a.side = .localSide ∧ h.link.Ready a
  | .message count _ => h.closed = false ∧ h.link.Ready (.handleRead .remoteSide count)

/-- The scans that a message leads to are not disturbed by what stands behind the writer. -/
def Undisturbed (h : HttpLink) (count : Nat) : Prop :=
  ∀ link, h.link.step (.handleRead .remoteSide count) = .ok link →
    h.ctx.quiet (link .remoteSide).input = true

/-- The bytes that a step hands to a buffer fit its `int` indices, no scan is disturbed, and `::send`
does not end the process. -/
def Fits (cb : HttpCallback) (h : HttpLink) : HttpAct → Prop
  | .net a => h.link.Fits a ∧ ¬ Link.Breaks a
  | .message count result => h.link.Fits (.handleRead .remoteSide count) ∧ h.Undisturbed count ∧
    ∀ calls h', h.receive cb count = .ok (calls, h') → ∀ data, .send data ∈ calls →
      h'.link.Fits (.send .remoteSide data result) ∧ ¬ Link.Breaks (.send .remoteSide data result)

def Allowed (cb : HttpCallback) (h : HttpLink) (a : HttpAct) : Prop := h.Ready a ∧ h.Fits cb a

def Steps (cb : HttpCallback) (h : HttpLink) (a : HttpAct) (h' : HttpLink) : Prop := h.step cb a = .ok h'

/-- The calls answer the first requests that the client's bytes spell, or then refuse. -/
def Faithful (cb : HttpCallback) (given : Bytes) (calls : List ConnCall) : Prop :=
  ∃ answered made, HttpSession.Answers cb answered made ∧ answered <+: requests {} given ∧
    (calls = made ∨ calls = made ++ [.send badRequest, .forceClose])

theorem Faithful.mono {cb : HttpCallback} {given given' : Bytes} {calls : List ConnCall}
    (h : Faithful cb given calls) (more : given <+: given') : Faithful cb given' calls := by
  obtain ⟨answered, made, answers, first, ends⟩ := h
  exact ⟨answered, made, answers, first.trans (requests_mono more), ends⟩

/-- While the server's connection is open. -/
structure Serving (cb : HttpCallback) (h : HttpLink) : Prop where
  sound : Link.Sound h.server h.client.endpoint.accepted
  between : h.ctx.Between
  sent : h.server.given = h.calls.flatMap ConnCall.bytes
  spells : ∃ answered, HttpSession.Answers cb answered h.calls ∧ ∀ future,
    requests {} (h.server.consumed ++ h.server.input.contents ++ future) =
      answered ++ h.ctx.requests (h.server.input.contents ++ future)

structure Invariant (cb : HttpCallback) (h : HttpLink) : Prop where
  client : Link.Sound h.client h.server.endpoint.accepted
  sent : h.server.endpoint.accepted <+: h.calls.flatMap ConnCall.bytes
  faithful : Faithful cb h.client.given h.calls
  serving : h.closed = false → Serving cb h

variable {cb : HttpCallback} {h h' : HttpLink}

/-- A front of the client's bytes, and what the stage of the server says of them. -/
theorem faithful_of_stage {stream given : Bytes} {answered : List HttpRequest} {s : HttpSession}
    (stage : HttpSession.Stage cb stream answered s) (part : stream <+: given) :
    Faithful cb given s.calls := by
  have more := requests_mono part
  cases stage with
  | serving _ _ answers spells =>
    have whole := spells []
    rw [List.append_nil] at whole
    refine ⟨answered, s.calls, answers, .trans ?_ more, .inl rfl⟩
    rw [whole]
    exact List.prefix_append ..
  | @refused calls same answers why =>
    refine ⟨answered, calls, answers, .trans ?_ more, .inr same⟩
    have whole := why []
    rw [List.append_nil] at whole
    exact ⟨[], (List.append_nil _).trans whole.symm⟩

theorem accepted_given {p : LinkEnd} {sent : Bytes} (sound : Link.Sound p sent) :
    p.endpoint.accepted <+: p.given := ⟨_, sound.outgoing.stream⟩

/-- A step of the client. -/
theorem client_step (inv : Invariant cb h) {a : LinkAct} (local_ : a.side = .localSide)
    (ready : h.link.Ready a) (fits : h.link.Fits a) (alive : ¬ Link.Breaks a)
    (run : h.step cb (.net a) = .ok h') : Invariant cb h' := by
  have old : Link.Sound (h.link a.side) (h.link a.side.other).endpoint.accepted := by
    rw [local_]
    exact inv.client
  obtain ⟨p, taken, advance⟩ := Link.step_spec old ready alive fits
  rw [local_] at taken advance
  rw [step, taken] at run
  cases run
  have kept : Invariant cb (h.setClient p) := by
    refine ⟨?_, ?_, ?_, fun open_ => ?_⟩
    · rw [client_setClient, server_setClient]
      exact advance.sound
    · rw [server_setClient]
      exact inv.sent
    · rw [client_setClient]
      exact inv.faithful.mono advance.given
    · have serving := inv.serving open_
      refine ⟨?_, serving.between, ?_, ?_⟩
      · rw [client_setClient, server_setClient]
        exact serving.sound.grow advance.accepted
      · rw [server_setClient]
        exact serving.sent
      · rw [server_setClient]
        exact serving.spells
  exact kept

/-- `HandleWrite` of the server. -/
theorem write_step (inv : Invariant cb h) (open_ : h.closed = false) {result : SendResult}
    (ready : h.link.Ready (.handleWrite .remoteSide result))
    (run : h.step cb (.net (.handleWrite .remoteSide result)) = .ok h') : Invariant cb h' := by
  have serving := inv.serving open_
  obtain ⟨e, taken, input, advance⟩ := Link.handleWrite_advance serving.sound ready
  rw [step, taken] at run
  cases run
  have kept : Invariant cb (h.setServer { h.server with endpoint := e }) := by
    have sound := advance.sound
    refine ⟨?_, ?_, ?_, fun _ => ⟨?_, serving.between, ?_, ?_⟩⟩
    · rw [client_setServer, server_setServer]
      exact inv.client.grow advance.accepted
    · rw [server_setServer]
      exact serving.sent ▸ accepted_given sound
    · rw [client_setServer]
      exact inv.faithful
    · rw [client_setServer, server_setServer]
      exact sound
    · rw [server_setServer]
      exact serving.sent
    · rw [server_setServer]
      simp only [LinkEnd.input, input]
      exact serving.spells
  exact kept

/-- After the `readv` and the `onMessage` of a message, before its calls are carried out. -/
structure Received (cb : HttpCallback) (h : HttpLink) (made : List ConnCall) (h₁ : HttpLink) : Prop where
  shape : HttpSession.Made made
  client : h₁.client = h.client
  closed : h₁.closed = h.closed
  calls : h₁.calls = h.calls ++ made
  sound : Link.Sound h₁.server h.client.endpoint.accepted
  accepted : h₁.server.endpoint.accepted = h.server.endpoint.accepted
  given : h₁.server.given = h.server.given
  faithful : Faithful cb h.client.given (h.calls ++ made)
  goes_on : (h₁.ctx.Between ∧ ∃ answered, HttpSession.Answers cb answered (h.calls ++ made) ∧ ∀ future,
      requests {} (h₁.server.consumed ++ h₁.server.input.contents ++ future) =
        answered ++ h₁.ctx.requests (h₁.server.input.contents ++ future)) ∨ .forceClose ∈ made

theorem receive_received (inv : Invariant cb h) (serving : Serving cb h) {count : Nat}
    (ready : h.link.Ready (.handleRead .remoteSide count))
    (fits : h.link.Fits (.handleRead .remoteSide count)) (calm : h.Undisturbed count)
    {made : List ConnCall} {h₁ : HttpLink} (run : h.receive cb count = .ok (made, h₁)) : Received cb h made h₁ := by
  obtain ⟨c, taken, advance⟩ := Link.handleRead_advance serving.sound ready fits
  have sound := advance.sound
  have stream : h.server.consumed ++ c.contents = h.client.endpoint.accepted.take (h.server.stored + count) :=
    sound.taken
  obtain ⟨answered, answers, spells⟩ := serving.spells
  -- the bytes that have come are behind the ones that were there
  obtain ⟨chunk, grown⟩ : h.server.input.contents <+: c.contents := by
    apply (List.prefix_append_right_inj h.server.consumed).mp
    rw [stream, serving.sound.taken]
    exact List.take_prefix_take_left (Nat.le_add_right ..)
  have before (future : Bytes) : requests {} (h.server.consumed ++ c.contents ++ future) =
      answered ++ h.ctx.requests (c.contents ++ future) := by
    rw [← grown, ← List.append_assoc, List.append_assoc _ chunk future, spells, List.append_assoc]
  rw [receive, taken, ok_bind] at run
  simp only [Function.update_self] at run
  have quiet : h.ctx.quiet c = true := by
    have scans := calm _ taken
    rwa [Function.update_self] at scans
  obtain ⟨_, ⟨made', ctx', b', more, message, delivered⟩ | ⟨f, failed, _⟩⟩ :=
    HttpSession.onMessage_delivered serving.between sound.small answers before quiet
  · obtain ⟨result, message', run⟩ := bind_eq_ok.mp run
    cases message.symm.trans message'
    cases run
    have whole : c.contents.take (c.contents.length - b'.contents.length) ++ b'.contents = c.contents :=
      List.suffix_iff_eq_append.mp delivered.held
    have parsed : h.server.consumed ++ c.contents.take (c.contents.length - b'.contents.length) ++
        b'.contents = h.server.consumed ++ c.contents := by
      rw [List.append_assoc, whole]
    refine ⟨delivered.shape, ?_, rfl, rfl, ?_, ?_, ?_, ?_, ?_⟩
    · rw [client_setServer]
      exact client_setServer h { h.server.setInput c with stored := h.server.stored + count }
    · rw [server_setServer]
      refine ⟨sound.outgoing.setInput b', sound.reading, delivered.small, sound.stored, ?_⟩
      exact parsed.trans stream
    · rw [server_setServer]
      rfl
    · rw [server_setServer]
      rfl
    · refine faithful_of_stage delivered.stage (.trans ?_ (accepted_given inv.client))
      rw [stream]
      exact List.take_prefix ..
    · refine delivered.goes_on.imp_left fun ⟨between, answers, spells⟩ => ⟨between, _, answers, ?_⟩
      intro future
      rw [server_setServer]
      rw [← parsed] at spells
      exact spells future
  · obtain ⟨result, message', run⟩ := bind_eq_ok.mp run
    cases failed.symm.trans message'

/-- `ForceClose` of an open connection closes it and sends nothing. -/
theorem forceClose_closes {s s' : Served} (connected : s.endpoint.conn.status = .CONNECTED)
    (run : s.forceClose = .ok s') : s'.closed = true ∧ s'.endpoint.accepted = s.endpoint.accepted := by
  rw [Served.forceClose, if_neg (not_not.mpr connected)] at run
  obtain ⟨regs, _, run⟩ := bind_eq_ok.mp run
  cases run
  exact ⟨rfl, rfl⟩

variable {made : List ConnCall} {h₁ : HttpLink}

/-- No call, or a response on a connection that stays open. -/
theorem Received.serving (received : Received cb h made h₁) (inv : Invariant cb h)
    (stays : .forceClose ∉ made) {p : LinkEnd} (sound : Link.Sound p h.client.endpoint.accepted)
    (accepted : h.server.endpoint.accepted <+: p.endpoint.accepted)
    (given : p.given = (h.calls ++ made).flatMap ConnCall.bytes) (consumed : p.consumed = h₁.server.consumed)
    (input : p.input = h₁.server.input) : Invariant cb (h₁.setServer p) := by
  obtain ⟨between, spells⟩ := received.goes_on.resolve_right stays
  refine ⟨?_, ?_, ?_, fun _ => ⟨?_, between, ?_, ?_⟩⟩
  · rw [client_setServer, server_setServer, received.client]
    exact inv.client.grow accepted
  · rw [server_setServer]
    change _ <+: h₁.calls.flatMap ConnCall.bytes
    rw [received.calls, ← given]
    exact accepted_given sound
  · rw [client_setServer, received.client]
    change Faithful cb _ h₁.calls
    rw [received.calls]
    exact received.faithful
  · rw [client_setServer, server_setServer, received.client]
    exact sound
  · rw [server_setServer, given]
    change _ = h₁.calls.flatMap ConnCall.bytes
    rw [received.calls]
  · rw [server_setServer, consumed, input]
    change ∃ answered, HttpSession.Answers cb answered h₁.calls ∧ _
    rw [received.calls]
    exact spells

/-- The `Send` of a message. -/
theorem Received.send (received : Received cb h made h₁) {data : Bytes} {result : SendResult}
    (fits : h₁.link.Fits (.send .remoteSide data result))
    (alive : ¬ Link.Breaks (.send .remoteSide data result)) :
    ∃ p, h₁.perform result (.send data) = .ok (h₁.setServer p) ∧
      Link.Sound p h.client.endpoint.accepted ∧
      h.server.endpoint.accepted <+: p.endpoint.accepted ∧ p.given = h.server.given ++ data ∧
      p.consumed = h₁.server.consumed ∧ p.input = h₁.server.input := by
  have old : Link.Sound (h₁.link .remoteSide) (h₁.link Side.remoteSide.other).endpoint.accepted := by
    have same : (h₁.link Side.remoteSide.other).endpoint.accepted = h.client.endpoint.accepted :=
      congrArg (·.endpoint.accepted) received.client
    rw [same]
    exact received.sound
  obtain ⟨e, taken, input, advance⟩ := Link.send_advance old alive fits
  refine ⟨{ h₁.server with endpoint := e, given := h₁.server.given ++ data }, ?_, ?_, ?_, ?_, rfl, input⟩
  · rw [perform, taken]
    rfl
  · rw [← received.client]
    exact advance.sound
  · rw [← received.accepted]
    exact advance.accepted
  · rw [← received.given]

/-- The last response, and the descriptor closed behind it. -/
theorem Received.ended (received : Received cb h made h₁) (inv : Invariant cb h) {p : LinkEnd}
    {closing : Endpoint} (sound : Link.Sound p h.client.endpoint.accepted)
    (accepted : h.server.endpoint.accepted <+: p.endpoint.accepted)
    (given : p.given = (h.calls ++ made).flatMap ConnCall.bytes)
    (kept : closing.accepted = p.endpoint.accepted) :
    Invariant cb { (h₁.setServer p).setServer { p with endpoint := closing } with closed := true } := by
  have client : ((h₁.setServer p).setServer { p with endpoint := closing }).client = h.client := by
    rw [client_setServer, client_setServer, received.client]
  have server : ((h₁.setServer p).setServer { p with endpoint := closing }).server.endpoint.accepted =
      p.endpoint.accepted := by
    rw [server_setServer]
    exact kept
  refine ⟨?_, ?_, ?_, nofun⟩
  · change Link.Sound ((h₁.setServer p).setServer { p with endpoint := closing }).client
      ((h₁.setServer p).setServer { p with endpoint := closing }).server.endpoint.accepted
    rw [client, server]
    exact inv.client.grow accepted
  · change ((h₁.setServer p).setServer { p with endpoint := closing }).server.endpoint.accepted <+:
      h₁.calls.flatMap ConnCall.bytes
    rw [server, received.calls, ← given]
    exact accepted_given sound
  · change Faithful cb ((h₁.setServer p).setServer { p with endpoint := closing }).client.given h₁.calls
    rw [client, received.calls]
    exact received.faithful

theorem message_step (inv : Invariant cb h) (open_ : h.closed = false) {count : Nat} {result : SendResult}
    (ready : h.link.Ready (.handleRead .remoteSide count)) (fits : h.Fits cb (.message count result))
    (run : h.step cb (.message count result) = .ok h') : Invariant cb h' := by
  have serving := inv.serving open_
  obtain ⟨⟨made, h₁⟩, read, run⟩ := bind_eq_ok.mp run
  have received := receive_received inv serving ready fits.1 fits.2.1 read
  have given := serving.sent
  change made.foldlM (perform result) h₁ = .ok h' at run
  rcases received.shape with rfl | ⟨data, rfl | rfl⟩
  · have same : h₁ = h' := Except.ok.inj run
    subst same
    have kept := received.serving inv (by simp) received.sound (received.accepted ▸ List.prefix_rfl)
      (by rw [List.append_nil, ← given, received.given]) rfl rfl
    have same : h₁.setServer h₁.server = h₁ := by
      rw [setServer, Function.update_eq_self]
    rwa [same] at kept
  · obtain ⟨room, alive⟩ := fits.2.2 _ _ read data (by simp)
    obtain ⟨p, sent, sound, accepted, given', consumed, input⟩ := received.send room alive
    rw [List.foldlM_cons, sent] at run
    cases run
    refine received.serving inv (by simp) sound accepted ?_ consumed input
    rw [given', given, List.flatMap_append]
    simp [ConnCall.bytes]
  · obtain ⟨room, alive⟩ := fits.2.2 _ _ read data (by simp)
    obtain ⟨p, sent, sound, accepted, given', consumed, input⟩ := received.send room alive
    rw [List.foldlM_cons, sent, ok_bind, List.foldlM_cons] at run
    obtain ⟨h₂, closes, run⟩ := bind_eq_ok.mp run
    cases run
    obtain ⟨s, ran, same⟩ := bind_eq_ok.mp closes
    cases same
    rw [server_setServer] at ran
    obtain ⟨closed, kept⟩ := forceClose_closes sound.outgoing.status ran
    have whole : p.given = (h.calls ++ [ConnCall.send data, .forceClose]).flatMap ConnCall.bytes := by
      rw [given', given, List.flatMap_append]
      simp [ConnCall.bytes]
    have ended := received.ended inv sound accepted whole kept
    rw [← closed] at ended
    rw [server_setServer]
    exact ended

/-- Two loops with a new connection each, the remote one an `HttpServer`'s. -/
structure Opened (h : HttpLink) : Prop where
  link : h.link.Opened
  ctx : h.ctx = {}
  calls : h.calls = []
  closed : h.closed = false

theorem Opened.invariant (opened : h.Opened) : Invariant cb h := by
  have sound := opened.link.invariant
  have given := opened.link.given .remoteSide
  have consumed := opened.link.consumed .remoteSide
  have input := opened.link.input .remoteSide
  have none : h.server.input.contents = [] := by
    rw [input, IoBuffer.new_contents]
  have answers : HttpSession.Answers cb [] h.calls := ⟨[], .nil, opened.calls⟩
  refine ⟨sound .localSide, ?_, ?_, fun _ => ⟨sound .remoteSide, .inl opened.ctx, ?_, [], answers, ?_⟩⟩
  · rw [opened.calls, (opened.link.established .remoteSide).accepted]
    exact List.nil_prefix
  · exact ⟨[], h.calls, answers, List.nil_prefix, .inl rfl⟩
  · rw [given, opened.calls]
    rfl
  · intro future
    rw [consumed, none, opened.ctx]
    rfl

theorem steps_invariant (inv : Invariant cb h) {a : HttpAct} (allowed : Allowed cb h a)
    (taken : Steps cb h a h') : Invariant cb h' := by
  obtain ⟨ready, fits⟩ := allowed
  cases a with
  | message count result => exact message_step inv ready.1 ready.2 fits taken
  | net a =>
    cases a with
    | handleWrite s result =>
      cases s with
      | localSide => exact client_step inv ready.1 ready.2 fits.1 fits.2 taken
      | remoteSide => exact write_step inv ready.1 ready.2 taken
    | send s data result => exact client_step inv ready.1 ready.2 fits.1 fits.2 taken
    | handleRead s count => exact client_step inv ready.1 ready.2 fits.1 fits.2 taken
    | get s size => exact client_step inv ready.1 ready.2 fits.1 fits.2 taken

/-- For every callback and every run of the two ends in which no scan for a line is disturbed by what
stands behind the writer, whatever the client sends and however the bytes are cut on the way: all that
the client has received is a front of the bytes of the server's calls; and these are the answers to the
first requests that the client's own bytes spell, in order, and after them at most one refusal. While the
connection is open, the requests that are not answered are the ones that the unparsed bytes spell. -/
theorem client_receives_answers (cb : HttpCallback) (start h : HttpLink) (opened : start.Opened)
    (run : Reaches (Steps cb) (Allowed cb) start h) :
    (h.client.consumed ++ h.client.input.contents <+: h.calls.flatMap ConnCall.bytes) ∧
      Faithful cb h.client.given h.calls ∧
      (h.closed = false → ∃ answered, HttpSession.Answers cb answered h.calls ∧
        requests {} (h.client.endpoint.accepted.take h.server.stored) =
          answered ++ h.ctx.requests h.server.input.contents) := by
  have inv : Invariant cb h := run.invariant opened.invariant fun _ _ _ inv allowed taken =>
    steps_invariant inv allowed taken
  refine ⟨?_, inv.faithful, fun open_ => ?_⟩
  · rw [inv.client.taken]
    exact (List.take_prefix ..).trans inv.sent
  · have serving := inv.serving open_
    obtain ⟨answered, answers, spells⟩ := serving.spells
    refine ⟨answered, answers, ?_⟩
    have whole := spells []
    rwa [List.append_nil, List.append_nil, serving.sound.taken] at whole

instance (h : HttpLink) : DecidablePred h.Ready
  | .net (.handleWrite .remoteSide _) => inferInstanceAs (Decidable (_ ∧ _))
  | .net (.handleWrite .localSide _) => inferInstanceAs (Decidable (_ ∧ _))
  | .net (.send ..) => inferInstanceAs (Decidable (_ ∧ _))
  | .net (.handleRead ..) => inferInstanceAs (Decidable (_ ∧ _))
  | .net (.get ..) => inferInstanceAs (Decidable (_ ∧ _))
  | .message .. => inferInstanceAs (Decidable (_ ∧ _))

/-- Whether a call of a message fits. -/
def fitsCall (result : SendResult) (h : HttpLink) : ConnCall → Bool
  | .send data =>
    decide (h.link.Fits (.send .remoteSide data result) ∧ ¬ Link.Breaks (.send .remoteSide data result))
  | .forceClose => true

/-- `Fits`, by carrying out the first part of the step. -/
def fitsNow (cb : HttpCallback) (h : HttpLink) : HttpAct → Bool
  | .net a => decide (h.link.Fits a ∧ ¬ Link.Breaks a)
  | .message count result => decide (h.link.Fits (.handleRead .remoteSide count)) &&
    (match h.link.step (.handleRead .remoteSide count) with
    | .ok link => h.ctx.quiet (link .remoteSide).input
    | .error _ => true) &&
    match h.receive cb count with
    | .ok (calls, h') => calls.all (fitsCall result h')
    | .error _ => true

theorem fitsNow_sound (cb : HttpCallback) (h : HttpLink) (a : HttpAct) (now : h.fitsNow cb a = true) :
    h.Fits cb a := by
  cases a with
  | net a =>
    have fits : h.link.Fits a ∧ ¬ Link.Breaks a := of_decide_eq_true now
    exact fits
  | message count result =>
    obtain ⟨before, each⟩ := Bool.and_eq_true_iff.mp now
    obtain ⟨room, scans⟩ := Bool.and_eq_true_iff.mp before
    refine ⟨of_decide_eq_true room, fun link taken => ?_, fun calls h' read data member => ?_⟩
    · rwa [taken] at scans
    rw [read] at each
    exact of_decide_eq_true (List.all_eq_true.mp each _ member)

def next (cb : HttpCallback) (h : HttpLink) (a : HttpAct) : Option HttpLink :=
  if h.Ready a ∧ h.fitsNow cb a then (h.step cb a).toOption else none

theorem next_sound (cb : HttpCallback) (h : HttpLink) (a : HttpAct) (h' : HttpLink)
    (taken : h.next cb a = some h') : Allowed cb h a ∧ Steps cb h a h' := by
  unfold next at taken
  split at taken
  · rename_i now
    refine ⟨⟨now.1, fitsNow_sound cb h a now.2⟩, ?_⟩
    unfold Steps
    cases run : h.step cb a with
    | error f =>
      rw [run] at taken
      cases taken
    | ok m =>
      rw [run] at taken
      cases taken
      rfl
  · cases taken

/-- A request in two pieces, and the first twenty bytes of its response. -/
def ping : List HttpAct :=
  [.net (.send .localSide rootRequest.bytes (.takes 10)), .message 10 (.takes 0),
    .net (.handleWrite .localSide (.takes 99)), .message 8 (.takes 20), .net (.handleRead .localSide 20),
    .net (.get .localSide 20)]

theorem client_receives_answers_ping : ∃ h : HttpLink,
    Reaches (Steps pong) (Allowed pong) { link := Link.pair } h ∧ h.client.consumed.length = 20 ∧
      (h.client.consumed ++ h.client.input.contents <+: h.calls.flatMap ConnCall.bytes) ∧
      Faithful pong h.client.given h.calls := by
  have opened : Opened { link := Link.pair } := ⟨Link.pair_opened, rfl, rfl, rfl⟩
  have ends : (ping.foldlM (next pong) { link := Link.pair }).map (fun h => h.client.consumed.length) =
      some 20 := by decide +kernel
  obtain ⟨h, run, length⟩ := Option.map_eq_some_iff.mp ends
  have reaches := (Runs.of_function (next pong) (next_sound pong) ping run).reaches
  obtain ⟨received, faithful, _⟩ := client_receives_answers pong _ h opened reaches
  exact ⟨h, reaches, length, received, faithful⟩

end HttpLink
end Yamq
