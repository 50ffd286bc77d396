import Yamq.Decimal
import Yamq.Http.HttpResponse
import Yamq.Http.RequestLine

/-! A decoder for what `appendToBuffer` emits: it takes one response off a stream of bytes. -/
namespace Yamq
open PairSearch

/-- The bytes before the first CR LF and those behind it. -/
def nextLine (x : Bytes) : Option (Bytes × Bytes) :=
  (findPair CR LF x).map fun i => (x.take i, x.drop (i + 2))

theorem nextLine_line (line : Bytes) (clean : NoPair CR LF line) (rest : Bytes) :
    nextLine (line ++ CR :: LF :: rest) = some (line, rest) := by
  rw [nextLine, findPair_line CR_ne_LF clean, Option.map_some, List.take_left,
    List.drop_append]
  simp

namespace HttpStatusCode

def all : List HttpStatusCode :=
  [.kUnknown, .k200Ok, .k301MovedPermanently, .k400BadRequest, .k404NotFound]

def text (code : HttpStatusCode) : Bytes := ascii (toString code.value)

def ofText (t : Bytes) : Option HttpStatusCode := all.find? (·.text = t)

theorem ofText_text (code : HttpStatusCode) : ofText code.text = some code := by
  cases code <;> decide

end HttpStatusCode

namespace HttpResponse

/-- The status line: the version, the code and the message, with a space between them. -/
def decodeStatus (line : Bytes) : Option (HttpStatusCode × Bytes) := do
  let (_, rest) ← splitAtByte 32 line
  let (code, message) ← splitAtByte 32 rest
  return (← HttpStatusCode.ofText code, message)

/-- The lines between the status and the headers: the length of the body, if there is one. -/
def decodeConnection (x : Bytes) : Option (Option Nat × Bytes) := do
  let (first, rest) ← nextLine x
  if first = ascii "Connection: close" then return (none, rest)
  else
    let (_, digits) ← splitAtByte 32 first
    let (_, rest) ← nextLine rest
    return (some (decimal digits), rest)

/-- The header lines up to the empty one. -/
def decodeHeaders : Nat → Bytes → Option (List (Bytes × Bytes) × Bytes)
  | 0, _ => none
  | fuel + 1, x => do
    let (line, rest) ← nextLine x
    if line = [] then return ([], rest)
    else
      let (name, value) ← splitAtByte 58 line
      let (headers, rest) ← decodeHeaders fuel rest
      return ((name, value.drop 1) :: headers, rest)

def parse (x : Bytes) : Option (HttpResponse × Bytes) := do
  let (status, rest) ← nextLine x
  let (code, message) ← decodeStatus status
  let (length, rest) ← decodeConnection rest
  let (headers, body) ← decodeHeaders rest.length rest
  match length with
  | none => return (⟨headers, code, message, true, body⟩, [])
  | some n => return (⟨headers, code, message, false, body.take n⟩, body.drop n)

/-- The first response of a stream and what follows it, when the stream is just that. -/
def decode (x : Bytes) : Option (HttpResponse × Bytes) :=
  (parse x).filter fun (r, rest) => r.bytes ++ rest = x

/-- The line behind the status line. -/
def secondLine (x : Bytes) : Option Bytes := do
  let (_, rest) ← nextLine x
  let (line, _) ← nextLine rest
  return line

/-- The responses that can be told apart on the wire. -/
structure Plain (r : HttpResponse) : Prop where
  message : ∀ c ∈ r.statusMessage, c ≠ CR ∧ c ≠ LF
  names : ∀ h ∈ r.headers, ∀ c ∈ h.1, c ≠ 58 ∧ c ≠ CR ∧ c ≠ LF
  values : ∀ h ∈ r.headers, ∀ c ∈ h.2, c ≠ CR ∧ c ≠ LF
  body : r.body.length < 10000000000000

/-! The pieces of a response as lines. -/

section
variable (r : HttpResponse)

def statusLine : Bytes := ascii "HTTP/1.1" ++ 32 :: (r.statusCode.text ++ 32 :: r.statusMessage)

def lengthLine : Bytes := ascii "Content-Length:" ++ 32 :: ascii (toString r.body.length)

def connectionLines : List Bytes :=
  if r.closeConnection then [ascii "Connection: close"]
  else [r.lengthLine, ascii "Connection: Keep-Alive"]

def headerLine (h : Bytes × Bytes) : Bytes := h.1 ++ 58 :: 32 :: h.2

/-- The `snprintf` for the status truncates nothing. -/
theorem status_piece : snprintf32 ("HTTP/1.1 " ++ toString r.statusCode.value ++ " ") =
    ascii "HTTP/1.1" ++ 32 :: (r.statusCode.text ++ [32]) := by
  generalize r.statusCode = code
  cases code <;> decide

/-- Neither does the one for the length, up to thirteen digits. -/
theorem length_piece (short : r.body.length < 10000000000000) :
    snprintf32 ("Content-Length: " ++ toString r.body.length ++ "\r\n") = r.lengthLine ++ crlf := by
  have digits : (ascii (toString r.body.length)).length ≤ 13 := (digits_length (by decide)).mpr short
  have front : ascii "Content-Length: " = ascii "Content-Length:" ++ [32] := by decide
  have width : (ascii "Content-Length:").length = 15 := by decide
  have ending : ascii "\r\n" = crlf := by decide
  rw [snprintf32, ascii_append, ascii_append, front, ending, List.take_of_length_le]
  · rw [lengthLine, List.append_assoc, List.append_assoc, List.append_assoc]
    rfl
  · simp only [List.length_append, width, crlf, List.length_cons, List.length_nil]
    omega

theorem connectionPieces_lines (short : r.body.length < 10000000000000) :
    r.connectionPieces.flatten = joinLines CR LF r.connectionLines := by
  unfold connectionPieces connectionLines
  split
  · rfl
  · rw [length_piece r short]
    simp [crlf]

theorem headerPieces_lines (headers : List (Bytes × Bytes)) :
    (headers.flatMap fun h => [h.1, ascii ": ", h.2, crlf]).flatten =
      joinLines CR LF (headers.map headerLine) := by
  have colon : ascii ": " = [58, 32] := by decide
  induction headers with
  | nil => rfl
  | cons h headers ih =>
    rw [List.flatMap_cons, List.flatten_append, ih, List.map_cons, joinLines_cons, headerLine, colon]
    simp [crlf]

/-- What is emitted, line by line. -/
theorem bytes_lines (short : r.body.length < 10000000000000) :
    r.bytes = r.statusLine ++ CR :: LF :: (joinLines CR LF r.connectionLines ++
      (joinLines CR LF (r.headers.map headerLine) ++ CR :: LF :: r.body)) := by
  rw [bytes, pieces, List.flatten_cons, List.flatten_cons, List.flatten_cons, List.flatten_append,
    List.flatten_append, status_piece, connectionPieces_lines r short, headerPieces_lines, statusLine]
  simp [crlf]

end

/-! The decoder on these lines. -/

section
variable {r : HttpResponse}

theorem decodeStatus_statusLine : decodeStatus r.statusLine = some (r.statusCode, r.statusMessage) := by
  have version : 32 ∉ ascii "HTTP/1.1" := by decide
  have number : 32 ∉ r.statusCode.text := by
    generalize r.statusCode = code
    cases code <;> decide
  have first := splitAtByte_append version (r.statusCode.text ++ 32 :: r.statusMessage)
  have second := splitAtByte_append number r.statusMessage
  simp only [decodeStatus, statusLine, first, second, HttpStatusCode.ofText_text, Option.bind_eq_bind,
    Option.bind_some, Option.pure_def]

theorem statusLine_clean (plain : r.Plain) : NoPair CR LF r.statusLine := by
  refine noPair_of_absent fun member => ?_
  simp only [statusLine, List.mem_append, List.mem_cons] at member
  rcases member with version | space | number | space | message
  · revert version
    decide
  · revert space
    decide
  · revert number
    generalize r.statusCode = code
    cases code <;> decide
  · revert space
    decide
  · exact (plain.message _ message).1 rfl

theorem lengthLine_clean : NoPair CR LF r.lengthLine := by
  refine noPair_of_absent fun member => ?_
  simp only [lengthLine, List.mem_append, List.mem_cons] at member
  rcases member with name | space | digit
  · revert name
    decide
  · revert space
    decide
  · have range := digit_byte digit
    exact absurd range.1 (by decide)

/-- The length is told from the other line by its fourth byte. -/
theorem lengthLine_ne : r.lengthLine ≠ ascii "Connection: close" := by
  intro same
  have fourth := congrArg (List.take 4) same
  rw [lengthLine, List.take_append_of_le_length (by decide)] at fourth
  revert fourth
  decide

theorem decodeConnection_lines (rest : Bytes) :
    decodeConnection (joinLines CR LF r.connectionLines ++ rest) =
      some (if r.closeConnection then none else some r.body.length, rest) := by
  unfold connectionLines
  split
  · have line := nextLine_line (ascii "Connection: close") (by decide) rest
    simp [decodeConnection, line]
  · have first := nextLine_line r.lengthLine lengthLine_clean
      (ascii "Connection: Keep-Alive" ++ CR :: LF :: rest)
    have second := nextLine_line (ascii "Connection: Keep-Alive") (by decide) rest
    have name : 32 ∉ ascii "Content-Length:" := by decide
    have digits : splitAtByte 32 r.lengthLine = some (ascii "Content-Length:", _) :=
      splitAtByte_append name (ascii (toString r.body.length))
    simpa [decodeConnection, first, second, lengthLine_ne, digits] using
      decimal_toString r.body.length

theorem headerLine_clean (plain : r.Plain) {h : Bytes × Bytes} (member : h ∈ r.headers) :
    NoPair CR LF (headerLine h) := by
  refine noPair_of_absent fun inside => ?_
  simp only [headerLine, List.mem_append, List.mem_cons] at inside
  rcases inside with name | colon | space | value
  · exact (plain.names h member _ name).2.1 rfl
  · revert colon
    decide
  · revert space
    decide
  · exact (plain.values h member _ value).1 rfl

theorem decodeHeaders_lines (plain : r.Plain) (body : Bytes) (headers : List (Bytes × Bytes))
    (among : ∀ h ∈ headers, h ∈ r.headers) (fuel : Nat) (enough : headers.length < fuel) :
    decodeHeaders fuel (joinLines CR LF (headers.map headerLine) ++ CR :: LF :: body) =
      some (headers, body) := by
  induction headers generalizing fuel with
  | nil =>
    obtain ⟨fuel, rfl⟩ := Nat.exists_eq_add_one_of_ne_zero (Nat.ne_zero_of_lt enough)
    have last := nextLine_line [] (by decide) body
    simp only [List.nil_append] at last
    simp [decodeHeaders, last]
  | cons h headers ih =>
    obtain ⟨fuel, rfl⟩ := Nat.exists_eq_add_one_of_ne_zero (Nat.ne_zero_of_lt enough)
    have inside := among h List.mem_cons_self
    have line := nextLine_line (headerLine h) (headerLine_clean plain inside)
      (joinLines CR LF (headers.map headerLine) ++ CR :: LF :: body)
    have colon : splitAtByte 58 (headerLine h) = some (h.1, 32 :: h.2) :=
      splitAtByte_append (fun name => (plain.names h inside _ name).1 rfl) _
    have filled : headerLine h ≠ [] := by
      simp [headerLine]
    have later := ih (fun g member => among g (List.mem_cons_of_mem _ member)) fuel
      (Nat.lt_of_succ_lt_succ enough)
    simp only [List.map_cons, joinLines_cons, List.append_assoc, List.cons_append] at line ⊢
    simp [decodeHeaders, line, filled, colon, later]

/-- A response is decoded from the front of any stream; one that closes the connection is the whole
stream. -/
theorem decode_bytes (plain : r.Plain) (rest : Bytes) (alone : r.closeConnection = true → rest = []) :
    decode (r.bytes ++ rest) = some (r, rest) := by
  have lines := joinLines_length CR LF (r.headers.map headerLine)
  have head := nextLine_line r.statusLine (statusLine_clean plain) (joinLines CR LF r.connectionLines ++
    (joinLines CR LF (r.headers.map headerLine) ++ CR :: LF :: (r.body ++ rest)))
  have fields := decodeHeaders_lines plain (r.body ++ rest) r.headers (fun _ member => member)
    (joinLines CR LF (r.headers.map headerLine) ++ CR :: LF :: (r.body ++ rest)).length
    (by simp only [List.length_append, List.length_cons, List.length_map] at lines ⊢; omega)
  have whole : r.bytes ++ rest = r.statusLine ++ CR :: LF :: (joinLines CR LF r.connectionLines ++
      (joinLines CR LF (r.headers.map headerLine) ++ CR :: LF :: (r.body ++ rest))) := by
    rw [bytes_lines r plain.body]
    simp
  have parsed : parse (r.bytes ++ rest) = some (r, rest) := by
    rw [whole]
    simp only [parse, head, decodeStatus_statusLine, decodeConnection_lines, fields,
      Option.bind_eq_bind, Option.bind_some, Option.pure_def]
    obtain ⟨headers, code, message, close, body⟩ := r
    cases close with
    | true =>
      cases alone rfl
      simp
    | false => simp
  rw [decode, parsed, Option.filter_some, if_pos (decide_eq_true rfl)]

theorem decode_strict {x rest : Bytes} (decoded : decode x = some (r, rest)) : r.bytes ++ rest = x := by
  obtain ⟨_, same⟩ := Option.filter_eq_some_iff.mp decoded
  exact of_decide_eq_true same

theorem secondLine_bytes (plain : r.Plain) (open_ : r.closeConnection = false) :
    secondLine r.bytes = some (ascii "Content-Length: " ++ ascii (toString r.body.length)) := by
  have lines : r.connectionLines = [r.lengthLine, ascii "Connection: Keep-Alive"] := by
    rw [connectionLines, open_]
    rfl
  have front : ascii "Content-Length: " = ascii "Content-Length:" ++ [32] := by decide
  have second := nextLine_line r.lengthLine lengthLine_clean
    (ascii "Connection: Keep-Alive" ++ CR :: LF ::
      (joinLines CR LF (r.headers.map headerLine) ++ CR :: LF :: r.body))
  rw [bytes_lines r plain.body, lines, secondLine,
    nextLine_line r.statusLine (statusLine_clean plain), front]
  simp only [joinLines_cons, joinLines_nil, List.append_assoc, List.cons_append, List.nil_append,
    Option.bind_eq_bind, Option.bind_some, second, Option.pure_def]
  rfl

end

/-- What `appendToBuffer` adds to a buffer decodes to the response, and the line that states the
length of the body is exact. -/
def Recovered (r : HttpResponse) (b : IoBuffer) : Prop :=
  ∃ out added, r.appendToBuffer b = .ok out ∧ out.contents = b.contents ++ added ∧
    decode added = some (r, []) ∧ (r.closeConnection = false →
      secondLine added = some (ascii "Content-Length: " ++ ascii (toString r.body.length)))

theorem Recovered.room {r : HttpResponse} {b : IoBuffer} (recovered : r.Recovered b)
    (written : b.Written) : b.writerIndex + r.bytes.length < 2147483648 := by
  obtain ⟨out, added, run, whole, decoded, _⟩ := recovered
  have strict := decode_strict decoded
  rw [List.append_nil] at strict
  subst strict
  obtain ⟨reader, writer⟩ := IoBuffer.appendAll_bounds r.pieces written.reader written.range run
  have width : out.contents.length ≤ out.readableBytes.toNat := List.length_take_le _ _
  have before := written.writer
  rw [whole, List.length_append] at width
  simp only [IoBuffer.readableBytes, reader, IoBuffer.kCheapPrepend] at width before
  omega

/-- For every response that can be told apart: it is recovered from what it adds to a buffer that has
only been written to exactly when that ends within `int`. -/
theorem recovered_iff {r : HttpResponse} (plain : r.Plain) {b : IoBuffer} (written : b.Written) :
    r.Recovered b ↔ b.writerIndex + r.bytes.length < 2147483648 := by
  refine ⟨fun recovered => recovered.room written, fun room => ?_⟩
  obtain ⟨out, run, _, contents⟩ := IoBuffer.appendAll_written r.pieces written room
  have decoded := decode_bytes plain [] (fun _ => rfl)
  rw [List.append_nil] at decoded
  exact ⟨out, r.bytes, run, contents, decoded, secondLine_bytes plain⟩

/-- A redirection without a body. -/
def moved : HttpResponse where
  headers := [(ascii "Location", ascii "/a:b")]
  statusCode := .k301MovedPermanently
  statusMessage := ascii "Moved"
  closeConnection := false

theorem moved_plain : moved.Plain where
  message := by decide +kernel
  names := by decide +kernel
  values := by decide +kernel
  body := by decide +kernel

theorem recovered_moved : moved.Recovered (.new IoBuffer.kInitialSize) :=
  (recovered_iff moved_plain (IoBuffer.new_written _ (by decide))).mpr (by decide +kernel)

theorem body_le_bytes (r : HttpResponse) : r.body.length ≤ r.bytes.length := by
  simp only [bytes, pieces, List.flatten_cons, List.flatten_append, List.flatten_nil,
    List.length_append]
  omega

/-- A body of 2 GiB does not get into a fresh buffer. -/
def large : HttpResponse := { closeConnection := true, body := List.replicate 2147483648 0 }

theorem large_length : large.body.length = 2147483648 := List.length_replicate

theorem large_lost : large.Plain ∧ ¬ large.Recovered (.new IoBuffer.kInitialSize) := by
  refine ⟨⟨nofun, nofun, nofun, by rw [large_length]; decide⟩, fun recovered => ?_⟩
  have room := recovered.room (IoBuffer.new_written _ (by decide))
  have start : (IoBuffer.new IoBuffer.kInitialSize).writerIndex = 8 := rfl
  have body := body_le_bytes large
  rw [large_length] at body
  omega

end HttpResponse
end Yamq
