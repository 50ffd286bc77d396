import Yamq.Http.HttpRequest
import Yamq.Rpc.IoBuffer

/-! `rpc/http/http_context.h` and `rpc/http/http_context.cpp`: the resumable request parser. -/
namespace Yamq

inductive HttpRequestParseState where
  | kExpectRequestLine | kExpectHeaders | kExpectBody | kGotAll
deriving DecidableEq, Repr

structure HttpContext where
  state : HttpRequestParseState := .kExpectRequestLine
  request : HttpRequest := {}
deriving DecidableEq, Repr

/-- `std::find` of one byte: what stands before it and behind it, `none` when it is absent. -/
def splitAtByte (c : Byte) (l : Bytes) : Option (Bytes × Bytes) :=
  match l.dropWhile (· != c) with
  | [] => none
  | _ :: behind => some (l.takeWhile (· != c), behind)

namespace HttpContext

def gotAll (ctx : HttpContext) : Bool := ctx.state == .kGotAll

def reset (_ : HttpContext) : HttpContext := {}

/-- The path is the target up to its first question mark, the query the rest. -/
def setTarget (r : HttpRequest) (target : Bytes) : HttpRequest :=
  match target.dropWhile (· != 63) with
  | [] => r.setPath target
  | query => (r.setPath (target.takeWhile (· != 63))).setQuery query

def processRequestLine (ctx : HttpContext) (line : Bytes) : Except Fault (Bool × HttpContext) :=
  match splitAtByte 32 line with
  | none => .ok (false, ctx)
  | some (m, rest) => do
    let (known, request) ← ctx.request.setMethod m
    if known then
      match splitAtByte 32 rest with
      | none => return (false, { ctx with request := request })
      | some (target, version) =>
        let request := setTarget request target
        if version.length = 8 ∧ version.take 7 = ascii "HTTP/1." then
          if version[7]? = some 49 then
            return (true, { ctx with request := request.setVersion .kHttp11 })
          else if version[7]? = some 48 then
            return (true, { ctx with request := request.setVersion .kHttp10 })
          else return (false, { ctx with request := request })
        else return (false, { ctx with request := request })
    else return (false, { ctx with request := request })

/-- How one turn of the loop in `parseRequest` ends: `hasMore` stays set, or the call returns. -/
inductive Turn where
  | more (ctx : HttpContext) (buf : IoBuffer)
  | done (ok : Bool) (ctx : HttpContext) (buf : IoBuffer)
deriving DecidableEq

/-- The bytes from `Peek()` up to a position in the vector. -/
def upTo (buf : IoBuffer) (crlf : Int) : Except Fault Bytes :=
  IoBuffer.load buf.buf buf.readerIndex (crlf - buf.readerIndex).toNat

def requestLineTurn (ctx : HttpContext) (buf : IoBuffer) : Option Int → Except Fault Turn
  | some crlf => do
    let (ok, ctx) ← ctx.processRequestLine (← upTo buf crlf)
    if ok then
      return .more { ctx with state := .kExpectHeaders } (← buf.getUntil (crlf + 2))
    else return .done false ctx buf
  | none => .ok (.done true ctx buf)

def headerTurn (ctx : HttpContext) (buf : IoBuffer) : Option Int → Except Fault Turn
  | some crlf => do
    match splitAtByte 58 (← upTo buf crlf) with
    | some (field, behind) =>
      let ctx := { ctx with request := ctx.request.addHeader field behind }
      return .more ctx (← buf.getUntil (crlf + 2))
    | none => return .done true { ctx with state := .kGotAll } (← buf.getUntil (crlf + 2))
  | none => .ok (.done true ctx buf)

def turn (ctx : HttpContext) (buf : IoBuffer) : Except Fault Turn :=
  match ctx.state with
  | .kExpectRequestLine => do requestLineTurn ctx buf (← buf.findCRLF)
  | .kExpectHeaders => do headerTurn ctx buf (← buf.findCRLF)
  | .kExpectBody => .ok (.more ctx buf)
  | .kGotAll => .ok (.more ctx buf)

def parseLoop : Nat → HttpContext → IoBuffer → Except Fault (Bool × HttpContext × IoBuffer)
  | 0, _, _ => .error .endless
  | fuel + 1, ctx, buf => do
    match ← turn ctx buf with
    | .more ctx buf => parseLoop fuel ctx buf
    | .done ok ctx buf => return (ok, ctx, buf)

/-- `parseRequest`. A turn that asks for more has consumed a line or changes nothing, so a loop
that is not over after one turn for each readable byte is never over. -/
def parseRequest (ctx : HttpContext) (buf : IoBuffer) :
    Except Fault (Bool × HttpContext × IoBuffer) :=
  parseLoop (buf.readableBytes.toNat + 1) ctx buf

/-! The parser over any search for the end of a line. -/

section
variable (find : IoBuffer → Except Fault (Option Int))

def turnWith (ctx : HttpContext) (buf : IoBuffer) : Except Fault Turn :=
  match ctx.state with
  | .kExpectRequestLine => do requestLineTurn ctx buf (← find buf)
  | .kExpectHeaders => do headerTurn ctx buf (← find buf)
  | .kExpectBody => .ok (.more ctx buf)
  | .kGotAll => .ok (.more ctx buf)

def parseLoopWith : Nat → HttpContext → IoBuffer → Except Fault (Bool × HttpContext × IoBuffer)
  | 0, _, _ => .error .endless
  | fuel + 1, ctx, buf => do
    match ← turnWith find ctx buf with
    | .more ctx buf => parseLoopWith fuel ctx buf
    | .done ok ctx buf => return (ok, ctx, buf)

def parseRequestWith (ctx : HttpContext) (buf : IoBuffer) :
    Except Fault (Bool × HttpContext × IoBuffer) :=
  parseLoopWith find (buf.readableBytes.toNat + 1) ctx buf

end

/-- `parseRequest` is the parser over the search of the source. -/
theorem parseRequest_eq (ctx : HttpContext) (buf : IoBuffer) :
    parseRequest ctx buf = parseRequestWith IoBuffer.findCRLF ctx buf := by
  have loops : ∀ fuel ctx buf, parseLoop fuel ctx buf = parseLoopWith IoBuffer.findCRLF fuel ctx buf := by
    intro fuel
    induction fuel with
    | zero => intro ctx buf; rfl
    | succ fuel ih =>
      intro ctx buf
      have same : turn ctx buf = turnWith IoBuffer.findCRLF ctx buf := rfl
      simp only [parseLoop, parseLoopWith, same, ih]
  exact loops ..

/-! The parser in a build with `NDEBUG`. -/

def requestLineTurnNdebug (ctx : HttpContext) (buf : IoBuffer) : Option Int → Except Fault Turn
  | some crlf => do
    let (ok, ctx) ← ctx.processRequestLine (← upTo buf crlf)
    if ok then
      return .more { ctx with state := .kExpectHeaders } (← buf.getUntilNdebug (crlf + 2))
    else return .done false ctx buf
  | none => .ok (.done true ctx buf)

def headerTurnNdebug (ctx : HttpContext) (buf : IoBuffer) : Option Int → Except Fault Turn
  | some crlf => do
    match splitAtByte 58 (← upTo buf crlf) with
    | some (field, behind) =>
      let ctx := { ctx with request := ctx.request.addHeader field behind }
      return .more ctx (← buf.getUntilNdebug (crlf + 2))
    | none => return .done true { ctx with state := .kGotAll } (← buf.getUntilNdebug (crlf + 2))
  | none => .ok (.done true ctx buf)

def turnNdebug (ctx : HttpContext) (buf : IoBuffer) : Except Fault Turn :=
  match ctx.state with
  | .kExpectRequestLine => do requestLineTurnNdebug ctx buf (← buf.findCRLF)
  | .kExpectHeaders => do headerTurnNdebug ctx buf (← buf.findCRLF)
  | .kExpectBody => .ok (.more ctx buf)
  | .kGotAll => .ok (.more ctx buf)

def parseLoopNdebug : Nat → HttpContext → IoBuffer → Except Fault (Bool × HttpContext × IoBuffer)
  | 0, _, _ => .error .endless
  | fuel + 1, ctx, buf => do
    match ← turnNdebug ctx buf with
    | .more ctx buf => parseLoopNdebug fuel ctx buf
    | .done ok ctx buf => return (ok, ctx, buf)

def parseRequestNdebug (ctx : HttpContext) (buf : IoBuffer) :
    Except Fault (Bool × HttpContext × IoBuffer) :=
  parseLoopNdebug (buf.readableBytes.toNat + 1) ctx buf

section
variable {ctx : HttpContext} {buf : IoBuffer}

theorem requestLineTurn_ndebug {crlf : Option Int} {t : Turn}
    (run : requestLineTurn ctx buf crlf = .ok t) : requestLineTurnNdebug ctx buf crlf = .ok t := by
  cases crlf with
  | none => exact run
  | some crlf =>
    obtain ⟨line, cut, run⟩ := bind_eq_ok.mp run
    obtain ⟨⟨ok, ctx'⟩, accepted, run⟩ := bind_eq_ok.mp run
    simp only [requestLineTurnNdebug, cut, accepted, ok_bind]
    cases ok with
    | false => exact run
    | true =>
      obtain ⟨buf', sought, run⟩ := bind_eq_ok.mp run
      have same : buf.getUntilNdebug (crlf + 2) = .ok buf' := IoBuffer.seek_ndebug sought
      simpa [same] using run

theorem headerTurn_ndebug {crlf : Option Int} {t : Turn} (run : headerTurn ctx buf crlf = .ok t) :
    headerTurnNdebug ctx buf crlf = .ok t := by
  cases crlf with
  | none => exact run
  | some crlf =>
    obtain ⟨line, cut, run⟩ := bind_eq_ok.mp run
    simp only [headerTurnNdebug, cut, ok_bind]
    cases split : splitAtByte 58 line with
    | none =>
      rw [split] at run
      obtain ⟨buf', sought, run⟩ := bind_eq_ok.mp run
      have same : buf.getUntilNdebug (crlf + 2) = .ok buf' := IoBuffer.seek_ndebug sought
      simpa [same] using run
    | some parts =>
      rw [split] at run
      obtain ⟨buf', sought, run⟩ := bind_eq_ok.mp run
      have same : buf.getUntilNdebug (crlf + 2) = .ok buf' := IoBuffer.seek_ndebug sought
      simpa [same] using run

theorem turn_ndebug {t : Turn} (run : turn ctx buf = .ok t) : turnNdebug ctx buf = .ok t := by
  unfold turn at run
  unfold turnNdebug
  split at run
  · obtain ⟨crlf, found, run⟩ := bind_eq_ok.mp run
    rw [found]
    exact requestLineTurn_ndebug run
  · obtain ⟨crlf, found, run⟩ := bind_eq_ok.mp run
    rw [found]
    exact headerTurn_ndebug run
  · exact run
  · exact run

/-- A call in which no assertion fails does the same without them. -/
theorem parseRequest_ndebug {r : Bool × HttpContext × IoBuffer} (run : parseRequest ctx buf = .ok r) :
    parseRequestNdebug ctx buf = .ok r := by
  have loops : ∀ fuel ctx buf, parseLoop fuel ctx buf = .ok r → parseLoopNdebug fuel ctx buf = .ok r := by
    intro fuel
    induction fuel with
    | zero => exact fun _ _ run => run
    | succ fuel ih =>
      intro ctx buf run
      obtain ⟨t, turned, run⟩ := bind_eq_ok.mp run
      rw [parseLoopNdebug, turn_ndebug turned, ok_bind]
      cases t with
      | more ctx buf => exact ih ctx buf run
      | done ok ctx buf => exact run
  exact loops _ ctx buf run

end

end HttpContext
end Yamq
