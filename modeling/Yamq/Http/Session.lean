import Yamq.Http.Chunking
import Yamq.Http.Pipelining
import Yamq.Http.ResponseDecoder
import Yamq.Lib.Transition
import Mathlib.Data.List.Forall2

/-! A connection of an `HttpServer` that is sent any bytes in any pieces, until `ForceClose`, while no
scan of `findCRLF` is disturbed by what stands behind the writer. Against it, what the lines of the whole
stream spell. -/
namespace Yamq

open PairSearch Transition

theorem nextLine_eq_some {x line rest : Bytes} :
    nextLine x = some (line, rest) ↔ x = line ++ CR :: LF :: rest ∧ NoPair CR LF line := by
  constructor
  · intro first
    obtain ⟨i, found, cut⟩ := Option.map_eq_some_iff.mp first
    cases cut
    obtain ⟨here, before⟩ := (findPair_some ..).mp found
    have bound := pairAt_bound here
    refine ⟨?_, fun j pair => ?_⟩
    · conv_lhs => rw [← List.take_append_drop i x]
      congr 1
      rw [List.drop_eq_getElem_cons (by omega), List.drop_eq_getElem_cons (by omega)]
      congr 1
      · exact (List.getElem?_eq_some_iff.mp here.1).2
      · congr 1
        exact (List.getElem?_eq_some_iff.mp here.2).2
    · have inside := pairAt_bound pair
      rw [List.length_take] at inside
      refine before j (by omega) ?_
      rw [← List.take_append_drop i x]
      exact (pairAt_append_left (by rw [List.length_take]; omega) _).mpr pair
  · rintro ⟨rfl, clean⟩
    exact nextLine_line line clean rest

theorem nextLine_append {x line rest : Bytes} (first : nextLine x = some (line, rest)) (future : Bytes) :
    nextLine (x ++ future) = some (line, rest ++ future) := by
  obtain ⟨rfl, clean⟩ := nextLine_eq_some.mp first
  rw [List.append_assoc]
  exact nextLine_line line clean (rest ++ future)

theorem nextLine_shorter {x line rest : Bytes} (first : nextLine x = some (line, rest)) :
    rest.length + 2 ≤ x.length := by
  obtain ⟨rfl, _⟩ := nextLine_eq_some.mp first
  simp only [List.length_append, List.length_cons]
  omega

theorem nextLine_suffix {x line rest : Bytes} (first : nextLine x = some (line, rest)) : rest <:+ x := by
  obtain ⟨rfl, _⟩ := nextLine_eq_some.mp first
  exact ⟨line ++ [CR, LF], by simp⟩

/-- What a whole line does to a parser. -/
inductive LineEffect where
  | continues (ctx : HttpContext)
  | completes (req : HttpRequest)
  | refuses

namespace HttpContext

def lineEffect (ctx : HttpContext) (line : Bytes) : LineEffect :=
  match ctx.state with
  | .kExpectRequestLine =>
    match ctx.processRequestLine line with
    | .ok (true, ctx) => .continues { ctx with state := .kExpectHeaders }
    | _ => .refuses
  | .kExpectHeaders =>
    match splitAtByte 58 line with
    | some (field, behind) => .continues { ctx with request := ctx.request.addHeader field behind }
    | none => .completes ctx.request
  | _ => .refuses

/-- The requests that a stream spells to a parser. A line that is refused ends them. -/
def requestsIn : Nat → HttpContext → Bytes → List HttpRequest
  | 0, _, _ => []
  | fuel + 1, ctx, x =>
    match nextLine x with
    | none => []
    | some (line, rest) =>
      match ctx.lineEffect line with
      | .continues ctx => requestsIn fuel ctx rest
      | .completes req => req :: requestsIn fuel {} rest
      | .refuses => []

/-- Each line takes two bytes at least. -/
def requests (ctx : HttpContext) (x : Bytes) : List HttpRequest := requestsIn (x.length + 1) ctx x

theorem requestsIn_enough (fuel : Nat) (ctx : HttpContext) (x : Bytes) (enough : x.length < fuel) :
    requestsIn fuel ctx x = requests ctx x := by
  induction fuel using Nat.strong_induction_on generalizing ctx x with
  | _ fuel ih =>
    cases fuel with
    | zero => omega
    | succ fuel =>
      rw [requests, requestsIn, requestsIn]
      cases first : nextLine x with
      | none => rfl
      | some cut =>
        obtain ⟨line, rest⟩ := cut
        have shorter := nextLine_shorter first
        have same (ctx : HttpContext) : requestsIn fuel ctx rest = requestsIn x.length ctx rest := by
          rw [ih fuel (Nat.lt_succ_self _) ctx rest (by omega), ih x.length (by omega) ctx rest (by omega)]
        dsimp only
        cases ctx.lineEffect line with
        | continues ctx => exact same ctx
        | completes req => exact congrArg (req :: ·) (same {})
        | refuses => rfl

theorem requests_line {ctx : HttpContext} {x line rest : Bytes} (first : nextLine x = some (line, rest)) :
    ctx.requests x = match ctx.lineEffect line with
      | .continues ctx => ctx.requests rest
      | .completes req => req :: requests {} rest
      | .refuses => [] := by
  have shorter := nextLine_shorter first
  rw [requests, requestsIn, first]
  dsimp only
  cases ctx.lineEffect line with
  | continues ctx => exact requestsIn_enough _ _ _ (by omega)
  | completes req => exact congrArg (req :: ·) (requestsIn_enough _ _ _ (by omega))
  | refuses => rfl

/-- Where the parser stands between two lines of a session. -/
def Between (ctx : HttpContext) : Prop := ctx = {} ∨ ctx.state = .kExpectHeaders

theorem Between.not_got {ctx : HttpContext} (between : ctx.Between) : ctx.gotAll = false := by
  rcases between with rfl | headers
  · rfl
  · rw [gotAll, headers]
    rfl

/-! One turn of the loop, whatever the line. -/

variable {ctx : HttpContext} {b : IoBuffer} {line rest : Bytes}

theorem cut_small (small : b.Small) (starts : b.contents = line ++ CR :: LF :: rest) :
    upTo b (b.readerIndex + line.length) = .ok line ∧
      ∃ b', b.getUntil (b.readerIndex + line.length + 2) = .ok b' ∧ b'.Small ∧ b'.contents = rest := by
  obtain ⟨cut, b', until_, sought, _, contents, _⟩ := cut_line small.toLayout starts
  refine ⟨cut, b', until_, HttpServer.seek_keeps_small small ?_ sought, contents⟩
  rw [starts, List.length_append, List.length_cons, List.length_cons]
  omega

/-- What `turn` makes of a line, given what the line does. -/
def Follows (ctx : HttpContext) (b : IoBuffer) (rest : Bytes) : LineEffect → Prop
  | .continues ctx' => ctx'.Between ∧ ∃ b', turn ctx b = .ok (.more ctx' b') ∧ b'.Small ∧ b'.contents = rest
  | .completes req => ∃ ctx' b', turn ctx b = .ok (.done true ctx' b') ∧ ctx'.gotAll = true ∧
      ctx'.request = req ∧ b'.Small ∧ b'.contents = rest
  | .refuses => ∃ ctx', turn ctx b = .ok (.done false ctx' b) ∧ ctx'.gotAll = false

theorem processRequestLine_state {ok : Bool} {ctx' : HttpContext}
    (run : ctx.processRequestLine line = .ok (ok, ctx')) : ctx'.state = ctx.state := by
  unfold processRequestLine at run
  split at run
  · cases run
    rfl
  · obtain ⟨⟨known, request⟩, _, run⟩ := bind_eq_ok.mp run
    simp only [pure_ok] at run
    split_ifs at run
    · split at run
      · cases run
        rfl
      · split_ifs at run <;> cases run <;> rfl
    · cases run
      rfl

/-- Each scan of the loop finds a whole line, or it stays in the vector and meets no CR LF behind the
writer. -/
def quietLoop : Nat → HttpContext → IoBuffer → Bool
  | 0, _, _ => true
  | fuel + 1, ctx, b => ((nextLine b.contents).isSome || decide b.Unambiguous) &&
    match turn ctx b with
    | .ok (.more ctx b) => quietLoop fuel ctx b
    | _ => true

/-- `parseRequest` with such scans. -/
def quiet (ctx : HttpContext) (b : IoBuffer) : Bool := quietLoop (b.readableBytes.toNat + 1) ctx b

/-- A buffer that holds the rest of a complete request is scanned without disturbance. -/
theorem quiet_whole {left : List Bytes} (fuel : Nat) (layout : b.Layout)
    (clean : ∀ l ∈ left, NoPair CR LF l) (ready : Before ctx left)
    (cut : b.contents = joinLines CR LF left ++ rest) : quietLoop fuel ctx b = true := by
  induction left generalizing fuel ctx b with
  | nil =>
    generalize none : ([] : List Bytes) = all at ready
    cases ready with
    | start req => cases none
    | headers _ _ => simp at none
  | cons line left ih =>
    cases fuel with
    | zero => rfl
    | succ fuel =>
      have starts : b.contents = line ++ CR :: LF :: (joinLines CR LF left ++ rest) := by
        rw [cut]
        simp
      have whole : (nextLine b.contents).isSome := by
        rw [starts, nextLine_line line (clean line List.mem_cons_self)]
        rfl
      rw [quietLoop, whole, Bool.true_or, Bool.true_and]
      cases left with
      | nil =>
        obtain ⟨rfl, state⟩ := ready.last
        obtain ⟨b', last, _⟩ := turn_last layout starts state
        rw [last]
      | cons next left =>
        obtain ⟨b', turned, _, layout', contents, _⟩ :=
          turn_line layout (clean line List.mem_cons_self) starts ready (by simp)
        rw [turned]
        exact ih fuel layout' (fun l member => clean l (List.mem_cons_of_mem _ member))
          (ready.next (by simp)) contents

/-- Without a whole line the turn waits. -/
theorem turn_waits (between : ctx.Between) (clear : b.Unambiguous) :
    turn ctx b = .ok (.done true ctx b) := by
  have none := IoBuffer.findCRLF_none.mpr clear
  rcases between with rfl | headers
  · rw [turn, none]
    rfl
  · rw [turn, headers, none]
    rfl

theorem turn_follows (small : b.Small) (between : ctx.Between)
    (first : nextLine b.contents = some (line, rest)) :
    ctx.Follows b rest (ctx.lineEffect line) := by
  obtain ⟨starts, clean⟩ := nextLine_eq_some.mp first
  obtain ⟨cut, b', until_, small', contents⟩ := cut_small small starts
  have found := IoBuffer.findCRLF_line small.toLayout clean starts
  rcases between with rfl | headers
  · obtain ⟨ok, ctx', run⟩ := processRequestLine_returns line
    have effect : lineEffect {} line =
        if ok then .continues { ctx' with state := .kExpectHeaders } else .refuses := by
      rw [lineEffect, run]
      cases ok <;> rfl
    rw [effect]
    have turned : turn {} b = requestLineTurn {} b (some (b.readerIndex + line.length)) := by
      rw [turn, found]
      rfl
    cases ok with
    | true =>
      refine ⟨.inr rfl, b', ?_, small', contents⟩
      simp only [turned, requestLineTurn, cut, run, until_, ok_bind, pure_ok, if_true]
    | false =>
      refine ⟨ctx', ?_, ?_⟩
      · simp only [turned, requestLineTurn, cut, run, ok_bind, pure_ok, Bool.false_eq_true, if_false]
      · rw [gotAll, processRequestLine_state run]
        rfl
  · have turned : turn ctx b = headerTurn ctx b (some (b.readerIndex + line.length)) := by
      rw [turn, headers, found]
      rfl
    cases split : splitAtByte 58 line with
    | none =>
      have effect : ctx.lineEffect line = .completes ctx.request := by
        rw [lineEffect, headers, split]
      rw [effect]
      refine ⟨{ ctx with state := .kGotAll }, b', ?_, rfl, rfl, small', contents⟩
      simp only [turned, headerTurn, cut, split, until_, ok_bind, pure_ok]
    | some parts =>
      obtain ⟨field, behind⟩ := parts
      have effect : ctx.lineEffect line =
          .continues { ctx with request := ctx.request.addHeader field behind } := by
        rw [lineEffect, headers, split]
      rw [effect]
      refine ⟨.inr headers, b', ?_, small', contents⟩
      simp only [turned, headerTurn, cut, split, until_, ok_bind, pure_ok]

/-- What `parseRequest` makes of a buffer that holds `x`, by the requests that `x` spells with whatever
comes behind it. -/
inductive Parsed (ctx : HttpContext) (x : Bytes) : Except Fault (Bool × HttpContext × IoBuffer) → Prop where
  | waits {ctx' : HttpContext} {b' : IoBuffer} : ctx'.Between → b'.Small → b'.contents <:+ x →
      (∀ future, ctx.requests (x ++ future) = ctx'.requests (b'.contents ++ future)) →
      Parsed ctx x (.ok (true, ctx', b'))
  | completes {ctx' : HttpContext} {b' : IoBuffer} : ctx'.gotAll = true → b'.Small → b'.contents <:+ x →
      (∀ future, ctx.requests (x ++ future) = ctx'.request :: requests {} (b'.contents ++ future)) →
      Parsed ctx x (.ok (true, ctx', b'))
  | refuses {ctx' : HttpContext} {b' : IoBuffer} : ctx'.gotAll = false → b'.Small → b'.contents <:+ x →
      (∀ future, ctx.requests (x ++ future) = []) → Parsed ctx x (.ok (false, ctx', b'))

/-- What is parsed behind a line that only moves the parser. -/
theorem Parsed.behind {ctx' : HttpContext} {x rest : Bytes}
    {outcome : Except Fault (Bool × HttpContext × IoBuffer)}
    (parsed : Parsed ctx' rest outcome) (last : rest <:+ x)
    (same : ∀ future, ctx.requests (x ++ future) = ctx'.requests (rest ++ future)) :
    Parsed ctx x outcome := by
  cases parsed with
  | waits between small held spells =>
    exact .waits between small (held.trans last) fun future => (same future).trans (spells future)
  | completes got small held spells =>
    exact .completes got small (held.trans last) fun future => (same future).trans (spells future)
  | refuses open_ small held none =>
    exact .refuses open_ small (held.trans last) fun future => (same future).trans (none future)

theorem parseLoop_parsed (fuel : Nat) {ctx : HttpContext} {b : IoBuffer} (small : b.Small)
    (between : ctx.Between) (enough : b.contents.length < fuel) (quiet : quietLoop fuel ctx b = true) :
    Parsed ctx b.contents (parseLoop fuel ctx b) := by
  induction fuel generalizing ctx b with
  | zero => omega
  | succ fuel ih =>
    obtain ⟨scan, later⟩ := (Bool.and_eq_true _ _).mp quiet
    cases first : nextLine b.contents with
    | none =>
      rw [first] at scan
      rw [parseLoop, turn_waits between (of_decide_eq_true scan)]
      exact .waits between small List.suffix_rfl fun _ => rfl
    | some cut =>
      obtain ⟨line, rest⟩ := cut
      have shorter := nextLine_shorter first
      have spells (future : Bytes) := @requests_line ctx _ _ _ (nextLine_append first future)
      have turned := turn_follows small between first
      generalize ctx.lineEffect line = effect at spells turned
      cases effect with
      | continues ctx' =>
        obtain ⟨between', b', run, small', contents⟩ := turned
        rw [run] at later
        rw [parseLoop, run]
        have behind := ih small' between' (by rw [contents]; omega) later
        rw [contents] at behind
        exact behind.behind (nextLine_suffix first) spells
      | completes req =>
        obtain ⟨ctx', b', run, got, same, small', contents⟩ := turned
        rw [parseLoop, run]
        refine .completes got small' (contents ▸ nextLine_suffix first) fun future => ?_
        rw [same, contents]
        exact spells future
      | refuses =>
        obtain ⟨ctx', run, got⟩ := turned
        rw [parseLoop, run]
        exact .refuses got small List.suffix_rfl spells

theorem parseRequest_parsed {ctx : HttpContext} {b : IoBuffer} (small : b.Small) (between : ctx.Between)
    (quiet : ctx.quiet b = true) : Parsed ctx b.contents (parseRequest ctx b) := by
  have len := IoBuffer.contents_length small.toLayout
  exact parseLoop_parsed _ small between (by omega) quiet

end HttpContext

/-! The session. -/

structure HttpSession where
  ctx : HttpContext := {}
  buf : IoBuffer := .new IoBuffer.kInitialSize
  calls : List ConnCall := []
deriving DecidableEq

namespace HttpSession

open HttpContext HttpServer

/-- `HandleRead` of a chunk, with `onMessage` as the message callback. -/
def handleRead (cb : HttpCallback) (s : HttpSession) (chunk : Bytes) : Except Fault HttpSession := do
  let (_, buf) ← s.buf.retrieve (.bytes chunk)
  let (calls, ctx, buf) ← onMessage parseRequest cb s.ctx buf
  return ⟨ctx, buf, s.calls ++ calls⟩

/-- The same in a build with `NDEBUG`. -/
def handleReadNdebug (cb : HttpCallback) (s : HttpSession) (chunk : Bytes) : Except Fault HttpSession := do
  let (_, buf) ← s.buf.retrieve (.bytes chunk)
  let (calls, ctx, buf) ← onMessage parseRequestNdebug cb s.ctx buf
  return ⟨ctx, buf, s.calls ++ calls⟩

def Step (cb : HttpCallback) (s : HttpSession) (chunk : Bytes) (s' : HttpSession) : Prop :=
  s.handleRead cb chunk = .ok s'

/-- The connection has not been closed, and the chunk fits its input buffer. -/
def Open (s : HttpSession) (chunk : Bytes) : Prop :=
  .forceClose ∉ s.calls ∧ chunk ≠ [] ∧ s.buf.PutFits chunk.length

instance (s : HttpSession) (chunk : Bytes) : Decidable (s.Open chunk) :=
  inferInstanceAs (Decidable (_ ∧ _ ∧ _))

/-- The scans that the chunk leads to are not disturbed either. -/
def Undisturbed (s : HttpSession) (chunk : Bytes) : Prop :=
  s.Open chunk ∧ ∀ n b, s.buf.retrieve (.bytes chunk) = .ok (n, b) → s.ctx.quiet b = true

instance (s : HttpSession) (chunk : Bytes) : Decidable (s.Undisturbed chunk) :=
  match read : s.buf.retrieve (.bytes chunk) with
  | .ok (n, b) => decidable_of_iff (s.Open chunk ∧ s.ctx.quiet b = true) (by simp [Undisturbed, read])
  | .error f => decidable_of_iff (s.Open chunk) (by simp [Undisturbed, read])

/-- The calls are the ones that `onRequest` makes for these requests, in order. -/
def Answers (cb : HttpCallback) (answered : List HttpRequest) (calls : List ConnCall) : Prop :=
  ∃ sent, List.Forall₂ (fun req made => onRequest cb req = .ok made) answered sent ∧ calls = sent.flatten

theorem Answers.concat {cb : HttpCallback} {answered : List HttpRequest} {calls made : List ConnCall}
    {req : HttpRequest} (answers : Answers cb answered calls) (last : onRequest cb req = .ok made) :
    Answers cb (answered ++ [req]) (calls ++ made) := by
  obtain ⟨sent, each, rfl⟩ := answers
  refine ⟨sent ++ [made], List.rel_append each (.cons last .nil), ?_⟩
  rw [List.flatten_append, List.flatten_singleton]

/-- After the bytes of `stream`, of which these requests are answered. -/
inductive Stage (cb : HttpCallback) (stream : Bytes) (answered : List HttpRequest) (s : HttpSession) : Prop where
  | serving : s.ctx.Between → s.buf.Small → Answers cb answered s.calls →
      (∀ future, requests {} (stream ++ future) = answered ++ s.ctx.requests (s.buf.contents ++ future)) →
      Stage cb stream answered s
  | refused {calls : List ConnCall} : s.calls = calls ++ [.send badRequest, .forceClose] →
      Answers cb answered calls →
      (∀ future, requests {} (stream ++ future) = answered) → Stage cb stream answered s

theorem start_stage (cb : HttpCallback) : Stage cb [] [] {} := by
  refine .serving (.inl rfl) (IoBuffer.new_small _ (by decide)) ⟨[], .nil, rfl⟩ fun future => ?_
  rw [IoBuffer.new_contents]
  rfl

/-- The calls of one `onMessage`. -/
def Made (calls : List ConnCall) : Prop :=
  calls = [] ∨ ∃ data, calls = [.send data] ∨ calls = [.send data, .forceClose]

theorem onRequest_made {cb : HttpCallback} {req : HttpRequest} {calls : List ConnCall}
    (run : onRequest cb req = .ok calls) : Made calls := by
  obtain ⟨buf, _, run⟩ := bind_eq_ok.mp run
  obtain ⟨data, _, run⟩ := bind_eq_ok.mp run
  cases run
  refine .inr ⟨data, ?_⟩
  split
  · exact .inr rfl
  · exact .inl rfl

/-- What one `onMessage` on a buffer that holds `x` leaves, where `stream` has come so far. -/
structure Delivered (cb : HttpCallback) (stream x : Bytes) (answered : List HttpRequest)
    (calls made : List ConnCall) (ctx' : HttpContext) (b' : IoBuffer) : Prop where
  shape : Made made
  small : b'.Small
  held : b'.contents <:+ x
  stage : Stage cb stream answered ⟨ctx', b', calls ++ made⟩
  goes_on : (ctx'.Between ∧ Answers cb answered (calls ++ made) ∧ ∀ future,
      requests {} (stream ++ future) = answered ++ ctx'.requests (b'.contents ++ future)) ∨
    .forceClose ∈ made

/-- A parser that ends does the same in a build with `NDEBUG`. -/
theorem onMessage_ndebug {cb : HttpCallback} {ctx : HttpContext} {c : IoBuffer} {x : Bytes}
    (parsed : Parsed ctx x (parseRequest ctx c)) :
    onMessage parseRequestNdebug cb ctx c = onMessage parseRequest cb ctx c := by
  have same : parseRequestNdebug ctx c = parseRequest ctx c := by
    generalize run : parseRequest ctx c = outcome at parsed
    cases parsed with
    | waits => exact parseRequest_ndebug run
    | completes => exact parseRequest_ndebug run
    | refuses => exact parseRequest_ndebug run
  rw [onMessage, onMessage, same]

theorem onMessage_delivered {cb : HttpCallback} {stream : Bytes} {answered : List HttpRequest}
    {calls : List ConnCall} {ctx : HttpContext} {c : IoBuffer} (between : ctx.Between) (small : c.Small)
    (answers : Answers cb answered calls)
    (spells : ∀ future, requests {} (stream ++ future) = answered ++ ctx.requests (c.contents ++ future))
    (quiet : ctx.quiet c = true) :
    onMessage parseRequestNdebug cb ctx c = onMessage parseRequest cb ctx c ∧
      ((∃ made ctx' b' more, onMessage parseRequest cb ctx c = .ok (made, ctx', b') ∧
        Delivered cb stream c.contents (answered ++ more) calls made ctx' b') ∨
      ∃ f, onMessage parseRequest cb ctx c = .error f ∧ ∃ req, onRequest cb req = .error f) := by
  have parsed := parseRequest_parsed small between quiet
  refine ⟨onMessage_ndebug parsed, ?_⟩
  simp only [onMessage]
  generalize parseRequest ctx c = outcome at parsed
  cases parsed with
  | @waits ctx' b' between' small' held same =>
    have answers' : Answers cb (answered ++ []) (calls ++ []) := by rwa [List.append_nil, List.append_nil]
    have spells' (future : Bytes) : requests {} (stream ++ future) =
        answered ++ [] ++ ctx'.requests (b'.contents ++ future) := by
      rw [spells, same, List.append_nil]
    refine .inl ⟨[], ctx', b', [], ?_, .inl rfl, small', held, .serving between' small' answers' spells',
      .inl ⟨between', answers', spells'⟩⟩
    simp only [ok_bind, answer, between'.not_got, pure_ok, if_true, Bool.false_eq_true, if_false,
      List.nil_append]
  | @completes ctx' b' got small' held same =>
    simp only [ok_bind, answer, got, if_true]
    cases made : onRequest cb ctx'.request with
    | error f => exact .inr ⟨f, rfl, _, made⟩
    | ok now =>
      have answers' := answers.concat made
      have spells' (future : Bytes) : requests {} (stream ++ future) =
          answered ++ [ctx'.request] ++ requests {} (b'.contents ++ future) := by
        rw [spells, same, List.append_assoc, List.singleton_append]
      refine .inl ⟨now, {}, b', [ctx'.request], ?_, onRequest_made made, small', held,
        .serving (.inl rfl) small' answers' spells', .inl ⟨.inl rfl, answers', spells'⟩⟩
      simp only [ok_bind, pure_ok, List.nil_append, HttpContext.reset]
  | @refuses ctx' b' got small' held none =>
    refine .inl ⟨[.send badRequest, .forceClose], ctx', b', [], ?_, .inr ⟨badRequest, .inr rfl⟩, small',
      held, .refused rfl ?_ ?_, .inr (by simp)⟩
    · simp only [ok_bind, answer, got, pure_ok, Bool.false_eq_true, if_false, List.append_nil]
    · rwa [List.append_nil]
    · intro future
      rw [spells, none, List.append_nil]

/-- One read. -/
theorem handleRead_stage {cb : HttpCallback} {stream chunk : Bytes} {answered : List HttpRequest}
    {s : HttpSession} (stage : Stage cb stream answered s) (calm : s.Undisturbed chunk) :
    s.handleReadNdebug cb chunk = s.handleRead cb chunk ∧
      ((∃ s' more, s.handleRead cb chunk = .ok s' ∧ Stage cb (stream ++ chunk) (answered ++ more) s') ∨
        ∃ f, s.handleRead cb chunk = .error f ∧ ∃ req, onRequest cb req = .error f) := by
  obtain ⟨⟨alive, some_, fits⟩, quiet⟩ := calm
  cases stage with
  | refused same => exact absurd (by simp [same]) alive
  | serving between small answers spells =>
    obtain ⟨c, read, small', contents⟩ := IoBuffer.retrieve_fits small chunk fits some_
    have before (future : Bytes) : requests {} (stream ++ chunk ++ future) =
        answered ++ s.ctx.requests (c.contents ++ future) := by
      rw [contents, List.append_assoc, List.append_assoc, spells]
    obtain ⟨same, outcome⟩ := onMessage_delivered between small' answers before (quiet _ c read)
    simp only [handleRead, handleReadNdebug, read, ok_bind, same, true_and]
    rcases outcome with ⟨made, ctx', b', more, run, delivered⟩ | ⟨f, failed, why⟩
    · exact .inl ⟨_, more, by rw [run]; rfl, delivered.stage⟩
    · exact .inr ⟨f, by rw [failed]; rfl, why⟩

theorem runs_stage {cb : HttpCallback} {chunks : List Bytes} {s : HttpSession}
    (run : Runs (Step cb) Undisturbed {} chunks s) : ∃ answered, Stage cb chunks.flatten answered s := by
  induction run with
  | start => exact ⟨[], start_stage cb⟩
  | step _ calm taken ih =>
    obtain ⟨answered, stage⟩ := ih
    rw [List.flatten_append, List.flatten_singleton]
    obtain ⟨_, ⟨s', more, read, stage'⟩ | ⟨f, failed, _⟩⟩ := handleRead_stage stage calm
    · cases taken.symm.trans read
      exact ⟨_, stage'⟩
    · cases taken.symm.trans failed

/-- For every callback, and any bytes sent in any pieces, of which no scan for a line is disturbed by
what stands behind the writer: the calls on the connection are the answers to the first requests that the
lines of the stream spell, none left out, and the rest of them is still to be parsed; or then a refusal,
where the lines end in one that is no request line. Another such read of the open connection is the same
with and without assertions, and fails only for a response that cannot be built. -/
theorem session_follows_stream (cb : HttpCallback) {chunks : List Bytes} {s : HttpSession}
    (run : Runs (Step cb) Undisturbed {} chunks s) :
    (∃ answered calls, Answers cb answered calls ∧
      ((s.calls = calls ∧ ∀ future, requests {} (chunks.flatten ++ future) =
          answered ++ s.ctx.requests (s.buf.contents ++ future)) ∨
        s.calls = calls ++ [.send badRequest, .forceClose] ∧
          ∀ future, requests {} (chunks.flatten ++ future) = answered)) ∧
      ∀ chunk, s.Undisturbed chunk → s.handleReadNdebug cb chunk = s.handleRead cb chunk ∧
        ∀ f, s.handleRead cb chunk = .error f → ∃ req, onRequest cb req = .error f := by
  obtain ⟨answered, stage⟩ := runs_stage run
  constructor
  · cases stage with
    | serving _ _ answers spells => exact ⟨answered, s.calls, answers, .inl ⟨rfl, spells⟩⟩
    | @refused calls same answers why => exact ⟨answered, calls, answers, .inr ⟨same, why⟩⟩
  · intro chunk calm
    obtain ⟨same, outcome⟩ := handleRead_stage stage calm
    refine ⟨same, fun f failed => ?_⟩
    rcases outcome with ⟨s', more, read, _⟩ | ⟨f', failed', why⟩
    · cases read.symm.trans failed
    · cases failed.symm.trans failed'
      exact why

/-- Where the pieces of a request lie, and where the reader and the writer stand behind them. -/
def rootHeld (calls : List ConnCall) (held : Bytes) (writer : Int) : HttpSession :=
  ⟨{}, ⟨List.replicate 8 0 ++ held ++ List.replicate (1024 - held.length) 0, 8, writer⟩, calls⟩

set_option maxRecDepth 20000 in
/-- A request in two pieces is answered behind the second one. -/
theorem session_follows_stream_pieces : ∃ s : HttpSession,
    Runs (Step pong) Undisturbed {} [rootRequest.bytes.take 15, rootRequest.bytes.drop 15] s ∧
      s.calls = [.send (response pong rootRequest.parsed).bytes] ∧
      ∃ answered, Answers pong answered s.calls ∧ ∀ future,
        requests {} (rootRequest.bytes ++ future) = answered ++ s.ctx.requests (s.buf.contents ++ future) := by
  have first : handleRead pong {} (rootRequest.bytes.take 15) =
      .ok (rootHeld [] (rootRequest.bytes.take 15) 23) := by decide +kernel
  have second : handleRead pong (rootHeld [] (rootRequest.bytes.take 15) 23) (rootRequest.bytes.drop 15) =
      .ok (rootHeld [.send (response pong rootRequest.parsed).bytes] rootRequest.bytes 8) := by
    decide +kernel
  have run : Runs (Step pong) Undisturbed {} [rootRequest.bytes.take 15, rootRequest.bytes.drop 15] _ :=
    .step (.step .start (by decide +kernel) first) (by decide +kernel) second
  obtain ⟨⟨answered, calls, answers, ends⟩, _⟩ := session_follows_stream pong run
  refine ⟨_, run, rfl, answered, ?_⟩
  rcases ends with ⟨same, spells⟩ | ⟨refused, _⟩
  · exact ⟨same ▸ answers, fun future => by simpa using spells future⟩
  · have length := congrArg List.length refused
    simp [rootHeld] at length

end HttpSession
end Yamq
