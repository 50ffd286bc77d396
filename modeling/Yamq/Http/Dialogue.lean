import Yamq.Http.RoundTrip
import Yamq.Http.Session

/-! A client that sends a request in one piece, waits for its response and sends the next one. -/
namespace Yamq

open PairSearch Transition

namespace HttpResponse

/-- All the responses of a stream. -/
def decodeAll : Nat → Bytes → Option (List HttpResponse)
  | _, [] => some []
  | 0, _ => none
  | fuel + 1, x => do
    let (r, rest) ← decode x
    return r :: (← decodeAll fuel rest)

/-- A stream of responses of which only the last one may close is decoded to these. -/
theorem decodeAll_bytes (rs : List HttpResponse) (plain : ∀ r ∈ rs, r.Plain)
    (open_ : rs.Pairwise fun r _ => r.closeConnection = false) :
    decodeAll rs.length (rs.flatMap bytes) = some rs := by
  induction rs with
  | nil => rfl
  | cons r rs ih =>
    obtain ⟨first, later⟩ := List.pairwise_cons.mp open_
    have alone : r.closeConnection = true → rs.flatMap bytes = [] := by
      intro closes
      cases rs with
      | nil => rfl
      | cons next rs =>
        have stays := first next List.mem_cons_self
        cases closes.symm.trans stays
    have some_ : r.bytes ++ rs.flatMap bytes ≠ [] := by
      intro none
      exact r.bytes_ne_nil (List.append_eq_nil_iff.mp none).1
    have behind := ih (fun r member => plain r (List.mem_cons_of_mem _ member)) later
    rw [List.flatMap_cons, List.length_cons, decodeAll.eq_3 _ _ some_,
      decode_bytes (plain r List.mem_cons_self) _ alone]
    simp only [Option.bind_eq_bind, Option.bind_some, behind, Option.pure_def]

end HttpResponse

def ConnCall.bytes : ConnCall → Bytes
  | .send data => data
  | .forceClose => []

namespace HttpSession

open HttpContext HttpServer

/-- Between two requests: the parser is reset and nothing is left to parse. -/
structure Idle (s : HttpSession) : Prop where
  reset : s.ctx = {}
  small : s.buf.Small
  empty : s.buf.contents = []

theorem start_idle : Idle {} := ⟨rfl, IoBuffer.new_small _ (by decide), IoBuffer.new_contents _⟩

theorem Idle.fits {s : HttpSession} (idle : s.Idle) {n : Nat} (short : n + 8 < 2147483648) :
    s.buf.PutFits n := by
  have layout := idle.small.toLayout
  have none := (IoBuffer.readable_zero layout).mpr idle.empty
  have start := layout.empty (by simp only [IoBuffer.readableBytes] at none; omega)
  simp only [IoBuffer.readableBytes, IoBuffer.kCheapPrepend] at none start
  left
  omega

/-- The calls for one response. -/
def callsFor (r : HttpResponse) : List ConnCall :=
  .send r.bytes :: if r.closeConnection then [.forceClose] else []

theorem callsFor_bytes (r : HttpResponse) : (callsFor r).flatMap ConnCall.bytes = r.bytes := by
  rw [callsFor]
  split <;> simp [ConnCall.bytes]

/-- A whole request in one read is answered, and the session is idle again. -/
theorem handleRead_request {cb : HttpCallback} {s : HttpSession} (idle : s.Idle) (req : PlainRequest)
    (short : req.serialise.length + 8 < 2147483648) (buffered : (response cb req.parsed).Buffered) :
    ∃ s', s.handleRead cb req.serialise = .ok s' ∧ s'.Idle ∧
      s'.calls = s.calls ++ callsFor (response cb req.parsed) := by
  have some_ : req.serialise ≠ [] := by
    simp [PlainRequest.serialise, PlainRequest.lines]
  obtain ⟨c, read, small, contents⟩ := IoBuffer.retrieve_fits idle.small _ (idle.fits short) some_
  rw [idle.empty, List.nil_append, ← List.append_nil req.serialise] at contents
  obtain ⟨b', parsed, got, empty⟩ :=
    parse_whole small.toLayout req.complete.lines_clean (.start req.complete) contents
  rw [req.complete_lines, req.feed_lines] at parsed got
  have small' : b'.Small := by
    have spelled := parseRequest_parsed small (.inl rfl)
      (quiet_whole _ small.toLayout req.complete.lines_clean (.start req.complete) contents)
    rw [parsed] at spelled
    cases spelled with
    | waits between _ _ _ => cases between.not_got
    | completes _ small' _ _ => exact small'
  refine ⟨⟨{}, b', s.calls ++ callsFor (response cb req.parsed)⟩, ?_, ⟨rfl, small', empty⟩, rfl⟩
  have made := onRequest_sends buffered
  simp only [handleRead, read, ok_bind, onMessage, idle.reset, parsed, answer, got, if_true, made, pure_ok,
    List.nil_append, HttpContext.reset, callsFor]

/-- For all requests and every callback whose responses can be told apart and of which only the last one
may close: each request is answered when it comes, and what the client receives decodes to the callback's
responses to the requests as they were sent. -/
theorem dialogue_round_trip (cb : HttpCallback) (reqs : List PlainRequest)
    (short : ∀ r ∈ reqs, r.serialise.length + 8 < 2147483648 ∧
      (response cb r.parsed).bytes.length + 8 < 2147483648)
    (plain : ∀ r ∈ reqs, (response cb r.parsed).Plain)
    (open_ : reqs.Pairwise fun r _ => (response cb r.parsed).closeConnection = false) :
    ∃ s : HttpSession, Runs (Step cb) Open {} (reqs.map PlainRequest.serialise) s ∧
      HttpResponse.decodeAll reqs.length (s.calls.flatMap ConnCall.bytes) =
        some (reqs.map fun r => response cb r.parsed) := by
  have answered : ∃ s : HttpSession, Runs (Step cb) Open {} (reqs.map PlainRequest.serialise) s ∧
      s.Idle ∧ s.calls = reqs.flatMap fun r => callsFor (response cb r.parsed) := by
    induction reqs using List.reverseRecOn with
    | nil => exact ⟨{}, .start, start_idle, rfl⟩
    | append_singleton reqs last ih =>
      obtain ⟨before, _, stays⟩ := List.pairwise_append.mp open_
      obtain ⟨s, run, idle, calls⟩ := ih (fun r member => short r (List.mem_append_left _ member))
        (fun r member => plain r (List.mem_append_left _ member)) before
      have member : last ∈ reqs ++ [last] := List.mem_append_right _ (List.mem_singleton_self last)
      obtain ⟨s', taken, idle', calls'⟩ := handleRead_request idle last (short last member).1
        ((HttpResponse.buffered_iff _).mpr (short last member).2)
      have alive : .forceClose ∉ s.calls := by
        rw [calls, List.mem_flatMap]
        rintro ⟨r, among, closes⟩
        rw [callsFor, stays r among last (List.mem_singleton_self last)] at closes
        simp at closes
      refine ⟨s', ?_, idle', ?_⟩
      · rw [List.map_append]
        exact run.step ⟨alive, by simp [PlainRequest.serialise, PlainRequest.lines],
          idle.fits (short last member).1⟩ taken
      · rw [calls', calls, List.flatMap_append, List.flatMap_singleton]
  obtain ⟨s, run, _, calls⟩ := answered
  refine ⟨s, run, ?_⟩
  have stream : s.calls.flatMap ConnCall.bytes =
      (reqs.map fun r => response cb r.parsed).flatMap HttpResponse.bytes := by
    rw [calls, List.flatMap_assoc, List.flatMap_map]
    exact congrArg (reqs.flatMap ·) (funext fun r => callsFor_bytes _)
  have decoded := HttpResponse.decodeAll_bytes (reqs.map fun r => response cb r.parsed)
    (by simpa using plain) (List.pairwise_map.mpr open_)
  rw [stream]
  rwa [List.length_map] at decoded

theorem dialogue_round_trip_pong :
    ∃ s : HttpSession, Runs (Step pong) Open {} [PlainRequest.sample.serialise, PlainRequest.sample.serialise] s ∧
      HttpResponse.decodeAll 2 (s.calls.flatMap ConnCall.bytes) =
        some [response pong PlainRequest.sample.parsed, response pong PlainRequest.sample.parsed] := by
  have plain : (response pong PlainRequest.sample.parsed).Plain :=
    ⟨by decide +kernel, by decide +kernel, by decide +kernel, by decide +kernel⟩
  exact dialogue_round_trip pong [.sample, .sample] (by decide +kernel) (by simpa using plain)
    (by decide +kernel)

end HttpSession
end Yamq
