import Yamq.Http.Chunking
import Yamq.Http.RequestLine
import Yamq.Rpc.IoBufferRoom

/-! A request, the bytes it is sent as, and what `parseRequest` makes of them. -/
namespace Yamq
open PairSearch

/-- Neither end of a value is whitespace. -/
def Trimmed (value : Bytes) : Prop :=
  (∀ c ∈ value.head?, ¬ isspace c) ∧ ∀ c ∈ value.getLast?, ¬ isspace c

instance (value : Bytes) : Decidable (Trimmed value) := inferInstanceAs (Decidable (_ ∧ _))

/-- A request to be sent, with the headers in their order. -/
structure PlainRequest where
  method : Method
  path : Bytes
  query : Bytes
  version : Version
  headers : List (Bytes × Bytes)
  known : method ≠ .kInvalid
  numbered : version ≠ .kUnknown
  pathPlain : ∀ c ∈ path, c ≠ 32 ∧ c ≠ 63 ∧ c ≠ CR ∧ c ≠ LF
  queryPlain : query = [] ∨ ∃ q, query = 63 :: q ∧ ∀ c ∈ q, c ≠ 32 ∧ c ≠ CR ∧ c ≠ LF
  namesPlain : ∀ h ∈ headers, ∀ c ∈ h.1, c ≠ 58 ∧ c ≠ CR ∧ c ≠ LF
  valuesPlain : ∀ h ∈ headers, (∀ c ∈ h.2, c ≠ CR ∧ c ≠ LF) ∧ Trimmed h.2

theorem Trimmed.dropWhile {value : Bytes} (h : Trimmed value) :
    (value.dropWhile isspace).reverse.dropWhile isspace = value.reverse := by
  have front : value.dropWhile isspace = value := by
    cases value with
    | nil => rfl
    | cons c rest => exact List.dropWhile_cons_of_neg (h.1 c rfl)
  rw [front]
  rcases List.eq_nil_or_concat' value with rfl | ⟨rest, c, rfl⟩
  · rfl
  · rw [List.reverse_append]
    exact List.dropWhile_cons_of_neg (h.2 c List.getLast?_concat)

/-- The whitespace that is sent before a value is taken off again. -/
theorem HttpRequest.addHeader_trimmed (r : HttpRequest) (field : Bytes) {value : Bytes}
    (h : Trimmed value) :
    r.addHeader field (32 :: value) = { r with headers := SortedMap.insert field value r.headers } := by
  have space : (32 :: value : Bytes).dropWhile isspace = value.dropWhile isspace :=
    List.dropWhile_cons_of_pos rfl
  rw [addHeader, space, h.dropWhile, List.reverse_reverse]

namespace PlainRequest

variable (req : PlainRequest)

def requestLine : Bytes :=
  HttpRequest.methodString { method := req.method } ++
    32 :: (req.path ++ req.query ++ 32 :: req.version.text)

def headerLine (h : Bytes × Bytes) : Bytes := h.1 ++ 58 :: 32 :: h.2

def lines : List Bytes := req.requestLine :: (req.headers.map headerLine ++ [[]])

def serialise : Bytes := joinLines CR LF req.lines

/-- The request in the parser's terms: the headers are put into the map one after the other. -/
def parsed : HttpRequest where
  method := req.method
  version := req.version
  path := req.path
  query := req.query
  headers := req.headers.foldl (fun m h => SortedMap.insert h.1 h.2 m) []

theorem target_plain : ∀ c ∈ req.path ++ req.query, c ≠ 32 ∧ c ≠ CR ∧ c ≠ LF := by
  intro c member
  rcases List.mem_append.mp member with inPath | inQuery
  · obtain ⟨space, _, rest⟩ := req.pathPlain c inPath
    exact ⟨space, rest⟩
  · rcases req.queryPlain with none | ⟨q, whole, plain⟩
    · rw [none] at inQuery
      cases inQuery
    · rw [whole] at inQuery
      rcases List.mem_cons.mp inQuery with rfl | inside
      · decide
      · exact plain c inside

theorem target_parts : (req.path ++ req.query).takeWhile (· != 63) = req.path ∧
    (req.path ++ req.query).dropWhile (· != 63) = req.query := by
  have before : ∀ c ∈ req.path, (c != 63) = true := fun c member =>
    bne_iff_ne.mpr (req.pathPlain c member).2.1
  rw [List.dropWhile_append_of_pos before, List.takeWhile_append_of_pos before]
  rcases req.queryPlain with empty | ⟨q, whole, _⟩
  · rw [empty, List.takeWhile_nil, List.dropWhile_nil, List.append_nil]
    exact ⟨rfl, rfl⟩
  · have mark : (63 :: q : Bytes).dropWhile (· != 63) = 63 :: q := rfl
    have behind : (63 :: q : Bytes).takeWhile (· != 63) = [] := rfl
    rw [whole, mark, behind, List.append_nil]
    exact ⟨rfl, rfl⟩

/-- The first line, as the grammar has it. -/
def grammar : RequestLine where
  method := req.method
  target := req.path ++ req.query
  version := req.version
  known := req.known
  unspaced := fun member => (req.target_plain 32 member).1 rfl
  numbered := req.numbered

theorem method_plain : ∀ c ∈ HttpRequest.methodString { method := req.method }, c ≠ CR := by
  generalize req.method = method
  cases method <;> decide +kernel

theorem version_plain : ∀ c ∈ req.version.text, c ≠ CR := by
  generalize req.version = version
  cases version <;> decide +kernel

/-- The request line is read as it was written. -/
theorem processRequestLine_requestLine : HttpContext.processRequestLine {} req.requestLine =
    .ok (true, { request := { req.parsed with headers := [] } }) := by
  obtain ⟨path, query⟩ := req.target_parts
  have read : req.grammar.request = { req.parsed with headers := [] } := by
    rw [RequestLine.request, grammar, path, query]
    rfl
  rw [← read]
  exact req.grammar.processRequestLine_text

theorem requestLine_clean : NoPair CR LF req.requestLine := by
  refine noPair_of_absent fun member => ?_
  rw [requestLine, List.mem_append, List.mem_cons, List.mem_append, List.mem_cons] at member
  rcases member with method | space | target | space | version
  · exact req.method_plain _ method rfl
  · revert space
    decide
  · exact (req.target_plain _ target).2.1 rfl
  · revert space
    decide
  · exact req.version_plain _ version rfl

theorem headerLine_clean {h : Bytes × Bytes} (member : h ∈ req.headers) :
    NoPair CR LF (headerLine h) := by
  refine noPair_of_absent fun inside => ?_
  rw [headerLine, List.mem_append, List.mem_cons, List.mem_cons] at inside
  rcases inside with name | colon | space | value
  · exact (req.namesPlain h member _ name).2.1 rfl
  · revert colon
    decide
  · revert space
    decide
  · exact ((req.valuesPlain h member).1 _ value).1 rfl

theorem headerLine_split {h : Bytes × Bytes} (member : h ∈ req.headers) :
    splitAtByte 58 (headerLine h) = some (h.1, 32 :: h.2) :=
  splitAtByte_append (fun inside => (req.namesPlain h member _ inside).1 rfl) _

def complete : CompleteRequest where
  line := req.requestLine
  headers := req.headers.map headerLine
  lineClean := req.requestLine_clean
  accepted := ⟨_, req.processRequestLine_requestLine⟩
  headersClean := by
    intro line member
    obtain ⟨h, inside, rfl⟩ := List.mem_map.mp member
    exact req.headerLine_clean inside
  colons := by
    intro line member
    obtain ⟨h, inside, rfl⟩ := List.mem_map.mp member
    rw [req.headerLine_split inside]
    rfl

theorem complete_lines : req.complete.lines = req.lines := rfl

/-- The header lines, one after the other. -/
theorem feed_headers (hs : List (Bytes × Bytes)) (among : ∀ h ∈ hs, h ∈ req.headers) {ctx : HttpContext}
    (state : ctx.state = .kExpectHeaders) : HttpContext.feed ctx (hs.map headerLine) =
      { ctx with request := { ctx.request with
        headers := hs.foldl (fun m h => SortedMap.insert h.1 h.2 m) ctx.request.headers } } := by
  induction hs generalizing ctx with
  | nil => rfl
  | cons h hs ih =>
    have inside := among h List.mem_cons_self
    have first : HttpContext.feedLine ctx (headerLine h) = { ctx with
        request := { ctx.request with headers := SortedMap.insert h.1 h.2 ctx.request.headers } } := by
      simp only [HttpContext.feedLine, state, req.headerLine_split inside,
        HttpRequest.addHeader_trimmed _ _ (req.valuesPlain h inside).2]
    have state' : (HttpContext.feedLine ctx (headerLine h)).state = .kExpectHeaders := by
      rw [first]
      exact state
    have rest := ih (fun x member => among x (List.mem_cons_of_mem h member)) state'
    rw [List.map_cons, HttpContext.feed, List.foldl_cons]
    refine rest.trans ?_
    rw [first]
    rfl

theorem feed_lines : HttpContext.feed {} req.lines = { state := .kGotAll, request := req.parsed } := by
  have line : HttpContext.feedLine {} req.requestLine =
      { state := .kExpectHeaders, request := { req.parsed with headers := [] } } := by
    simp only [HttpContext.feedLine, req.processRequestLine_requestLine]
  have state : (HttpContext.feedLine {} req.requestLine).state = .kExpectHeaders := by rw [line]
  have headers := req.feed_headers req.headers (fun _ member => member) state
  have whole : HttpContext.feed {} req.lines = HttpContext.feedLine (HttpContext.feed
      (HttpContext.feedLine {} req.requestLine) (req.headers.map headerLine)) [] := by
    simp [HttpContext.feed, lines]
  rw [whole, headers, line]
  rfl

/-- The last value of a repeated name wins. -/
theorem parsed_lookup (name : Bytes) :
    req.parsed.headers.lookup name = req.headers.reverse.lookup name := by
  have step (hs : List (Bytes × Bytes)) (m : List (Bytes × Bytes)) :
      (hs.foldl (fun m h => SortedMap.insert h.1 h.2 m) m).lookup name =
        (hs.reverse ++ m).lookup name := by
    induction hs generalizing m with
    | nil => rfl
    | cons h hs ih =>
      rw [List.foldl_cons, ih, List.reverse_cons, List.append_assoc, List.singleton_append,
        List.lookup_append, List.lookup_append, SortedMap.lookup_insert, List.lookup_cons]
      cases name == h.1 <;> rfl
  exact (step req.headers []).trans (by rw [List.append_nil])

/-- `Put` of the request and the bytes behind it into a new buffer, and one `parseRequest`: the request
comes out as it went in, and the bytes behind it stay. -/
def RoundTrips (rest : Bytes) : Prop :=
  ∃ whole ctx left, (IoBuffer.new IoBuffer.kInitialSize).put (req.serialise ++ rest) = .ok whole ∧
    HttpContext.parseRequest {} whole = .ok (true, ctx, left) ∧ ctx.gotAll = true ∧
    ctx.request.method = req.method ∧ ctx.request.path = req.path ∧ ctx.request.query = req.query ∧
    ctx.request.version = req.version ∧
    (∀ name, ctx.request.headers.lookup name = req.headers.reverse.lookup name) ∧ left.contents = rest

theorem roundTrips_short {rest : Bytes} (short : (req.serialise ++ rest).length + 8 < 2147483648) :
    req.RoundTrips rest := by
  have range : (IoBuffer.new IoBuffer.kInitialSize).writerIndex + (req.serialise ++ rest).length <
      2147483648 := by
    change (8 : Int) + _ < _
    omega
  obtain ⟨whole, put, layout, contents, _⟩ :=
    IoBuffer.put_spec (IoBuffer.new_layout IoBuffer.kInitialSize) _ range
  rw [IoBuffer.new_contents, List.nil_append] at contents
  obtain ⟨left, run, got, behind⟩ :=
    HttpContext.parse_whole layout req.complete.lines_clean (.start req.complete) contents
  rw [complete_lines, feed_lines] at run got
  exact ⟨whole, _, left, put, run, got, rfl, rfl, rfl, rfl, req.parsed_lookup, behind⟩

/-- Of more bytes than that the buffer would show a part only, so that the request or the bytes behind
it are cut off. -/
theorem not_roundTrips_long {rest : Bytes} (long : 2147483648 ≤ (req.serialise ++ rest).length + 8) :
    ¬ req.RoundTrips rest := by
  rintro ⟨whole, ctx, left, put, run, got, _, _, _, _, _, behind⟩
  obtain ⟨layout, k, short, contents⟩ := IoBuffer.put_wraps long put
  by_cases inside : k < req.serialise.length
  · rw [List.take_append_of_le_length (Nat.le_of_lt inside)] at contents
    have unfinished : req.serialise.drop k ≠ [] := by
      rw [ne_eq, List.drop_eq_nil_iff]
      exact Nat.not_le.mpr inside
    have cut : whole.contents ++ req.serialise.drop k = joinLines CR LF req.complete.lines := by
      rw [contents, List.take_append_drop]
      rfl
    obtain ⟨done, later, b, _, _, _, _, _, _, before, quiet, stale⟩ :=
      HttpContext.parse_part layout req.complete.lines_clean (.start req.complete) unfinished cut
    by_cases unambiguous : b.Unambiguous
    · cases (quiet unambiguous).symm.trans run
      rw [before.not_got] at got
      cases got
    · exact stale unambiguous _ _ run
  · have cut : whole.contents = joinLines CR LF req.complete.lines ++
        rest.take (k - req.serialise.length) := by
      rw [contents, List.take_append, List.take_of_length_le (Nat.not_lt.mp inside)]
      rfl
    obtain ⟨left', run', _, behind'⟩ :=
      HttpContext.parse_whole layout req.complete.lines_clean (.start req.complete) cut
    cases run'.symm.trans run
    have width := congrArg List.length (behind'.symm.trans behind)
    rw [List.length_take] at width
    rw [List.length_append] at short
    omega

/-- For every request and all bytes behind it, parsing undoes writing exactly when the whole is shorter
than 2^31 - 8 bytes. -/
theorem round_trips_iff (rest : Bytes) :
    req.RoundTrips rest ↔ (req.serialise ++ rest).length + 8 < 2147483648 := by
  constructor
  · intro round
    by_contra long
    exact req.not_roundTrips_long (Nat.not_lt.mp long) round
  · exact req.roundTrips_short

/-- `GET / HTTP/1.1` with one header twice. -/
def sample : PlainRequest where
  method := .kGet
  path := ascii "/"
  query := ascii "?a=b"
  version := .kHttp11
  headers := [(ascii "X", ascii "1"), (ascii "X", ascii "2 3")]
  known := by decide
  numbered := by decide
  pathPlain := by decide +kernel
  queryPlain := .inr ⟨ascii "a=b", rfl, by decide +kernel⟩
  namesPlain := by decide +kernel
  valuesPlain := by decide +kernel

/-- With 2^31 bytes behind the request `Put` writes past the end of the vector. -/
theorem round_trip_fails : ¬ sample.RoundTrips (List.replicate 2147483648 0) := by
  refine sample.not_roundTrips_long ?_
  rw [List.length_append, List.length_replicate]
  omega

end PlainRequest
end Yamq
