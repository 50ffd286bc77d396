import Yamq.Http.HttpContext

/-! A request that arrives in pieces. `findCRLF` looks at bytes behind the writer, so what a
partial line is taken for depends on what the vector still holds from earlier data. -/
namespace Yamq
open PairSearch

/-- A complete request: a request line that `processRequestLine` accepts, header lines with a
colon, an empty line. -/
structure CompleteRequest where
  line : Bytes
  headers : List Bytes
  lineClean : NoPair CR LF line
  accepted : ∃ ctx, HttpContext.processRequestLine {} line = .ok (true, ctx)
  headersClean : ∀ h ∈ headers, NoPair CR LF h
  colons : ∀ h ∈ headers, (splitAtByte 58 h).isSome

namespace CompleteRequest

def lines (req : CompleteRequest) : List Bytes := req.line :: (req.headers ++ [[]])

def bytes (req : CompleteRequest) : Bytes := joinLines CR LF req.lines

theorem lines_clean (req : CompleteRequest) : ∀ l ∈ req.lines, NoPair CR LF l := by
  intro l member
  simp only [lines, List.mem_cons, List.mem_append, List.not_mem_nil, or_false] at member
  rcases member with rfl | member | rfl
  · exact req.lineClean
  · exact req.headersClean l member
  · simp [NoPair, PairAt]

end CompleteRequest

namespace HttpContext

/-- What one whole line does to the parser, without the buffer. -/
def feedLine (ctx : HttpContext) (line : Bytes) : HttpContext :=
  match ctx.state with
  | .kExpectRequestLine =>
    match ctx.processRequestLine line with
    | .ok (_, ctx) => { ctx with state := .kExpectHeaders }
    | .error _ => ctx
  | .kExpectHeaders =>
    match splitAtByte 58 line with
    | some (field, behind) => { ctx with request := ctx.request.addHeader field behind }
    | none => { ctx with state := .kGotAll }
  | .kExpectBody => ctx
  | .kGotAll => ctx

def feed (ctx : HttpContext) (lines : List Bytes) : HttpContext := lines.foldl feedLine ctx

/-- The parser stands before these remaining lines of a complete request. -/
inductive Before : HttpContext → List Bytes → Prop where
  | start (req : CompleteRequest) : Before {} req.lines
  | headers {ctx : HttpContext} {hs : List Bytes} : ctx.state = .kExpectHeaders →
      (∀ h ∈ hs, (splitAtByte 58 h).isSome) → Before ctx (hs ++ [[]])

theorem Before.not_got {ctx : HttpContext} {left : List Bytes} (h : Before ctx left) :
    ctx.gotAll = false := by
  cases h with
  | start => rfl
  | headers state _ => simp [gotAll, state]

theorem Before.next {ctx : HttpContext} {line : Bytes} {left : List Bytes}
    (h : Before ctx (line :: left)) (more : left ≠ []) : Before (feedLine ctx line) left := by
  generalize hl : line :: left = all at h
  cases h with
  | start req =>
    obtain ⟨rfl, rfl⟩ := List.cons.inj hl
    obtain ⟨ctx, run⟩ := req.accepted
    have fed : feedLine {} req.line = { ctx with state := .kExpectHeaders } := by
      simp [feedLine, run]
    rw [fed]
    exact .headers rfl req.colons
  | @headers ctx hs state colons =>
    cases hs with
    | nil => exact absurd (List.cons.inj hl).2 more
    | cons header hs =>
      obtain ⟨rfl, rfl⟩ := List.cons.inj hl
      obtain ⟨⟨field, behind⟩, split⟩ := Option.isSome_iff_exists.mp (colons line (by simp))
      have fed : feedLine ctx line =
          { ctx with request := ctx.request.addHeader field behind } := by
        simp [feedLine, state, split]
      rw [fed]
      exact .headers state (fun h member => colons h (by simp [member]))

theorem Before.last {ctx : HttpContext} {line : Bytes} (h : Before ctx [line]) :
    line = [] ∧ ctx.state = .kExpectHeaders := by
  generalize hl : [line] = all at h
  cases h with
  | start req =>
    have := congrArg List.length hl
    simp [CompleteRequest.lines] at this
  | @headers ctx hs state _ =>
    cases hs with
    | nil => exact ⟨List.cons.inj hl |>.1, state⟩
    | cons _ hs =>
      have := congrArg List.length hl
      simp at this

/-! One turn of the loop, according to what the buffer holds. -/

section
variable {ctx : HttpContext} {b : IoBuffer} {line rest : Bytes}

/-- The bytes before the ending of a line, and the buffer behind it. -/
theorem cut_line (layout : b.Layout) (starts : b.contents = line ++ CR :: LF :: rest) :
    upTo b (b.readerIndex + line.length) = .ok line ∧
      ∃ b', b.getUntil (b.readerIndex + line.length + 2) = .ok b' ∧
        b.seek (line.length + 2 : Nat) = .ok b' ∧ b'.Layout ∧ b'.contents = rest ∧
        b'.writerIndex ≤ b.writerIndex := by
  have len := IoBuffer.contents_length layout
  have total : b.contents.length = line.length + 2 + rest.length := by
    rw [starts]; simp; omega
  constructor
  · obtain ⟨front, data, back, rfl⟩ := layout.eq_parts
    rw [IoBuffer.parts_contents] at starts
    subst starts
    have width : ((IoBuffer.parts front (line ++ CR :: LF :: rest) back).readerIndex + line.length -
        (IoBuffer.parts front (line ++ CR :: LF :: rest) back).readerIndex).toNat =
          line.length := by omega
    rw [upTo, width]
    have mid := IoBuffer.load_mid front line (CR :: LF :: rest ++ back)
    simpa [IoBuffer.parts] using mid
  · obtain ⟨b', run, layout', contents', writer'⟩ :=
      IoBuffer.seek_spec layout (k := line.length + 2) (by omega)
    have range := layout.range; have prepend := layout.prepend
    simp only [IoBuffer.kCheapPrepend, IoBuffer.readableBytes] at prepend len
    refine ⟨b', ?_, run, layout', ?_, writer'⟩
    · rw [IoBuffer.getUntil, toInt_small (by omega) (by omega)]
      convert run using 2
      omega
    · rw [contents', starts]
      simp [List.drop_append]

theorem turn_line {left : List Bytes} (layout : b.Layout) (clean : NoPair CR LF line)
    (starts : b.contents = line ++ CR :: LF :: rest) (ready : Before ctx (line :: left))
    (more : left ≠ []) :
    ∃ b', turn ctx b = .ok (.more (feedLine ctx line) b') ∧
      b.seek (line.length + 2 : Nat) = .ok b' ∧ b'.Layout ∧ b'.contents = rest ∧
      b'.writerIndex ≤ b.writerIndex := by
  obtain ⟨cut, b', until_, seek, layout', contents', writer'⟩ := cut_line layout starts
  refine ⟨b', ?_, seek, layout', contents', writer'⟩
  have found := IoBuffer.findCRLF_line layout clean starts
  generalize hl : line :: left = all at ready
  cases ready with
  | start req =>
    obtain ⟨rfl, rfl⟩ := List.cons.inj hl
    obtain ⟨ctx, run⟩ := req.accepted
    simp [turn, found, requestLineTurn, cut, run, until_, feedLine]
  | @headers ctx hs state colons =>
    cases hs with
    | nil => exact absurd (List.cons.inj hl).2 more
    | cons header hs =>
      obtain ⟨rfl, rfl⟩ := List.cons.inj hl
      obtain ⟨⟨field, behind⟩, split⟩ := Option.isSome_iff_exists.mp (colons line (by simp))
      simp [turn, state, found, headerTurn, cut, split, until_, feedLine]

/-- A line without a colon, empty or not, ends the request. -/
theorem turn_colonless (layout : b.Layout) (clean : NoPair CR LF line)
    (starts : b.contents = line ++ CR :: LF :: rest) (ready : ctx.state = .kExpectHeaders)
    (colonless : splitAtByte 58 line = none) :
    ∃ b', turn ctx b = .ok (.done true { ctx with state := .kGotAll } b') ∧ b'.Layout ∧
      b'.contents = rest := by
  obtain ⟨cut, b', until_, _, layout', contents', _⟩ := cut_line layout starts
  have found := IoBuffer.findCRLF_line layout clean starts
  exact ⟨b', by simp [turn, ready, found, headerTurn, cut, colonless, until_], layout', contents'⟩

theorem turn_last (layout : b.Layout) (starts : b.contents = CR :: LF :: rest)
    (ready : ctx.state = .kExpectHeaders) :
    ∃ b', turn ctx b = .ok (.done true (feedLine ctx []) b') ∧ b'.Layout ∧ b'.contents = rest := by
  have split : splitAtByte 58 [] = none := rfl
  have ended : feedLine ctx [] = { ctx with state := .kGotAll } := by
    simp only [feedLine, ready, split]
  rw [ended]
  exact turn_colonless layout (by simp [NoPair, PairAt]) starts ready split

theorem turn_wait {left : List Bytes} (ready : Before ctx left) (quiet : b.Unambiguous) :
    turn ctx b = .ok (.done true ctx b) := by
  have none := IoBuffer.findCRLF_none.mpr quiet
  cases ready with
  | start req => simp [turn, none, requestLineTurn]
  | headers state _ => simp [turn, state, none, headerTurn]

theorem turn_stale {left : List Bytes} (ready : Before ctx left) (layout : b.Layout)
    (open_line : NoPair CR LF b.contents) (stale : ¬ b.Unambiguous) :
    (∃ f, turn ctx b = .error f) ∨ ∃ ctx', turn ctx b = .ok (.done false ctx' b) := by
  rcases IoBuffer.findCRLF_stale layout open_line stale with out | ⟨p, found, low, past, high⟩
  · left
    cases ready with
    | start req => exact ⟨_, by simp [turn, out]; rfl⟩
    | headers state _ => exact ⟨_, by simp [turn, state, out]; rfl⟩
  · have beyond : b.getUntil (p + 2) = .error .assertion := by
      have range := layout.range
      rw [IoBuffer.getUntil, toInt_small (by omega) (by omega)]
      exact IoBuffer.seek_beyond (by simp only [IoBuffer.readableBytes]; omega)
    cases ready with
    | start req =>
      cases hu : upTo b p with
      | error f => exact .inl ⟨f, by simp [turn, found, requestLineTurn, hu]⟩
      | ok line =>
        cases hp : HttpContext.processRequestLine {} line with
        | error f => exact .inl ⟨f, by simp [turn, found, requestLineTurn, hu, hp]⟩
        | ok result =>
          obtain ⟨ok, ctx'⟩ := result
          cases ok with
          | true => exact .inl ⟨_, by simp [turn, found, requestLineTurn, hu, hp, beyond]; rfl⟩
          | false => exact .inr ⟨ctx', by simp [turn, found, requestLineTurn, hu, hp]⟩
    | headers state _ =>
      cases hu : upTo b p with
      | error f => exact .inl ⟨f, by simp [turn, state, found, headerTurn, hu]⟩
      | ok line =>
        cases hs : splitAtByte 58 line with
        | none => exact .inl ⟨_, by simp [turn, state, found, headerTurn, hu, hs, beyond]; rfl⟩
        | some split => exact .inl ⟨_, by simp [turn, state, found, headerTurn, hu, hs, beyond]; rfl⟩

end

/-- The lines that a buffer holds whole are parsed one after the other. -/
theorem parse_lines (done left : List Bytes) (rest : Bytes) {ctx : HttpContext} {b : IoBuffer}
    (layout : b.Layout) (clean : ∀ l ∈ done, NoPair CR LF l)
    (starts : b.contents = joinLines CR LF done ++ rest) (ready : Before ctx (done ++ left))
    (more : left ≠ []) :
    ∃ b', b.seek (joinLines CR LF done).length = .ok b' ∧ b'.Layout ∧ b'.contents = rest ∧
      b'.writerIndex ≤ b.writerIndex ∧ Before (feed ctx done) left ∧
      ∀ fuel, parseLoop (done.length + fuel) ctx b = parseLoop fuel (feed ctx done) b' := by
  induction done generalizing ctx b with
  | nil =>
    refine ⟨b, IoBuffer.seek_zero layout, layout, by simpa using starts, Int.le_refl _, ready,
      fun fuel => ?_⟩
    simp [feed]
  | cons line done ih =>
    have front : b.contents = line ++ CR :: LF :: (joinLines CR LF done ++ rest) := by
      simpa using starts
    have some_left : done ++ left ≠ [] := by simp [more]
    obtain ⟨c, first, seek, layout', contents', writer'⟩ :=
      turn_line layout (clean line (by simp)) front ready some_left
    obtain ⟨d, seek', layout'', contents'', writer'', ready', run⟩ :=
      ih layout' (fun l member => clean l (by simp [member])) contents'
        (ready.next some_left)
    refine ⟨d, ?_, layout'', contents'', by omega, ready', fun fuel => ?_⟩
    · have inside : line.length + 2 + (joinLines CR LF done).length ≤ b.contents.length := by
        rw [front]; simp; omega
      have both := IoBuffer.seek_seek layout inside seek seek'
      convert both using 2
      simp; omega
    · rw [List.length_cons, show done.length + 1 + fuel = done.length + fuel + 1 by omega]
      simp only [parseLoop, first, ok_bind]
      exact run fuel

/-- The fuel of `parseRequest` outlasts the whole lines. -/
theorem parseRequest_lines {ctx : HttpContext} {c b' : IoBuffer} {done : List Bytes} {rest : Bytes}
    (layout : c.Layout) (whole : c.contents = joinLines CR LF done ++ rest)
    (run : ∀ fuel, parseLoop (done.length + fuel) ctx c = parseLoop fuel (feed ctx done) b') :
    parseRequest ctx c =
      parseLoop (c.readableBytes.toNat - done.length + 1) (feed ctx done) b' := by
  have len := IoBuffer.contents_length layout
  have total : c.contents.length = (joinLines CR LF done).length + rest.length := by
    rw [whole, List.length_append]
  have lines := joinLines_length CR LF done
  rw [← run, parseRequest]
  congr 1
  omega

/-- `Put` of a chunk, then `parseRequest`. -/
def deliver (ctx : HttpContext) (b : IoBuffer) (chunk : Bytes) :
    Except Fault (Bool × HttpContext × IoBuffer) := do
  parseRequest ctx (← b.append chunk)

/-- Every call returns true, `gotAll` holds after the last chunk and not before, and the request
is then the given one. -/
def ParsesTo (request : HttpRequest) : HttpContext → IoBuffer → List Bytes → Prop
  | _, _, [] => False
  | ctx, b, chunk :: later => ∃ ctx' b', deliver ctx b chunk = .ok (true, ctx', b') ∧
    if later = [] then ctx'.gotAll = true ∧ ctx'.request = request
    else ctx'.gotAll = false ∧ ParsesTo request ctx' b' later

/-- The chunks lead where one call on the whole request in a fresh buffer leads. -/
def ChunkingIndependent (b : IoBuffer) (req : CompleteRequest) (chunks : List Bytes) : Prop :=
  ∃ whole ctx b', (IoBuffer.new IoBuffer.kInitialSize).append req.bytes = .ok whole ∧
    whole.contents = req.bytes ∧ parseRequest {} whole = .ok (true, ctx, b') ∧
    ctx.gotAll = true ∧ ParsesTo ctx.request {} b chunks

/-- The buffer after its whole lines were consumed. -/
def drained (b : IoBuffer) : Except Fault IoBuffer := b.seek (wholeLines CR LF b.contents)

/-- After each chunk but the last, with the whole lines consumed, the bytes that `findCRLF` scans
lie in the vector and hold no CR LF. -/
def NoStale : IoBuffer → List Bytes → Prop
  | _, [] => True
  | b, chunk :: later => later = [] ∨
    ∃ b', b.append chunk >>= drained = .ok b' ∧ b'.Unambiguous ∧ NoStale b' later

/-- A buffer with the front of a request: the whole lines are consumed, and what `parseRequest` makes
of the rest depends on the bytes behind the writer. -/
theorem parse_part {ctx : HttpContext} {c : IoBuffer} {back : Bytes} {left : List Bytes}
    (layout : c.Layout) (clean : ∀ l ∈ left, NoPair CR LF l) (ready : Before ctx left)
    (unfinished : back ≠ []) (cut : c.contents ++ back = joinLines CR LF left) :
    ∃ done left' b', left = done ++ left' ∧ drained c = .ok b' ∧ b'.Layout ∧
      NoPair CR LF b'.contents ∧ b'.contents ++ back = joinLines CR LF left' ∧
      b'.writerIndex ≤ c.writerIndex ∧ Before (feed ctx done) left' ∧
      (b'.Unambiguous → parseRequest ctx c = .ok (true, feed ctx done, b')) ∧
      (¬ b'.Unambiguous → ∀ ctx' d, parseRequest ctx c ≠ .ok (true, ctx', d)) := by
  obtain ⟨done, left', rest, rfl, whole, open_line, tail⟩ :=
    prefix_of_lines CR_ne_LF left clean _ _ cut
  have more : left' ≠ [] := by
    rintro rfl
    exact unfinished (List.append_eq_nil_iff.mp tail).2
  obtain ⟨b', seek, layout'', contents'', writer'', ready', run⟩ := parse_lines done left' rest
    layout (fun l member => clean l (by simp [member])) whole ready more
  have lines : wholeLines CR LF c.contents = (joinLines CR LF done).length := by
    rw [whole, wholeLines_join CR_ne_LF done open_line]
  have parsed := parseRequest_lines layout whole run
  refine ⟨done, left', b', rfl, ?_, layout'', by rwa [contents''], by rwa [contents''], writer'',
    ready', ?_, ?_⟩
  · simp only [drained, lines, seek]
  · intro quiet
    simp only [parsed, parseLoop, turn_wait ready' quiet, ok_bind, pure_ok]
  · intro stale ctx' d
    simp only [parsed, parseLoop]
    rcases turn_stale ready' layout'' (by rwa [contents'']) stale with ⟨f, fault⟩ | ⟨_, refused⟩
    · simp [fault]
    · simp [refused]

/-- A buffer with a whole request, and what follows it. -/
theorem parse_whole {ctx : HttpContext} {c : IoBuffer} {left : List Bytes} {rest : Bytes}
    (layout : c.Layout) (clean : ∀ l ∈ left, NoPair CR LF l) (ready : Before ctx left)
    (cut : c.contents = joinLines CR LF left ++ rest) :
    ∃ b', parseRequest ctx c = .ok (true, feed ctx left, b') ∧ (feed ctx left).gotAll = true ∧
      b'.contents = rest := by
  obtain rfl | ⟨init, line, rfl⟩ := List.eq_nil_or_concat left
  · generalize hl : ([] : List Bytes) = all at ready
    cases ready with
    | start req => cases hl
    | headers _ _ => simp at hl
  · have whole : c.contents = joinLines CR LF init ++ (line ++ CR :: LF :: rest) := by
      rw [cut]; simp
    obtain ⟨b', seek, layout'', contents'', _, ready', run⟩ := parse_lines init [line] _ layout
      (fun l member => clean l (by simp [member])) whole (by simpa using ready) (by simp)
    obtain ⟨rfl, state⟩ := ready'.last
    obtain ⟨d, last, _, contents'⟩ := turn_last layout'' contents'' state
    have parsed := parseRequest_lines layout whole run
    have end_ : feed ctx (init.concat []) = feedLine (feed ctx init) [] := by
      simp [feed]
    refine ⟨d, ?_, ?_, contents'⟩
    · simp only [parsed, parseLoop, last, ok_bind, pure_ok, end_]
    · have split : splitAtByte 58 [] = none := rfl
      rw [end_]
      simp [feedLine, state, split, gotAll]

theorem deliver_part {ctx : HttpContext} {b : IoBuffer} {chunk back : Bytes}
    {left : List Bytes} (layout : b.Layout) (room : b.writerIndex + chunk.length < 2147483648)
    (clean : ∀ l ∈ left, NoPair CR LF l) (ready : Before ctx left) (unfinished : back ≠ [])
    (cut : b.contents ++ chunk ++ back = joinLines CR LF left) :
    ∃ done left' b', left = done ++ left' ∧ b.append chunk >>= drained = .ok b' ∧ b'.Layout ∧
      NoPair CR LF b'.contents ∧ b'.contents ++ back = joinLines CR LF left' ∧
      b'.writerIndex ≤ b.writerIndex + chunk.length ∧ Before (feed ctx done) left' ∧
      (b'.Unambiguous → deliver ctx b chunk = .ok (true, feed ctx done, b')) ∧
      (¬ b'.Unambiguous → ∀ ctx' c, deliver ctx b chunk ≠ .ok (true, ctx', c)) := by
  obtain ⟨c, put, layout', contents', writer'⟩ := IoBuffer.put_spec layout chunk room
  rw [← contents'] at cut
  obtain ⟨done, left', b', rfl, seek, layout'', open_line, tail, writer'', ready', quiet, stale⟩ :=
    parse_part layout' clean ready unfinished cut
  have same : deliver ctx b chunk = parseRequest ctx c := by
    simp only [deliver, IoBuffer.append, put, ok_bind]
  refine ⟨done, left', b', rfl, ?_, layout'', open_line, tail, by omega, ready', ?_, ?_⟩
  · simp only [IoBuffer.append, put, ok_bind, seek]
  · rwa [same]
  · rwa [same]

theorem deliver_last {ctx : HttpContext} {b : IoBuffer} {chunk : Bytes} {left : List Bytes}
    (layout : b.Layout) (room : b.writerIndex + chunk.length < 2147483648)
    (clean : ∀ l ∈ left, NoPair CR LF l) (ready : Before ctx left)
    (cut : b.contents ++ chunk = joinLines CR LF left) :
    ∃ b', deliver ctx b chunk = .ok (true, feed ctx left, b') ∧ (feed ctx left).gotAll = true := by
  obtain ⟨c, put, layout', contents', _⟩ := IoBuffer.put_spec layout chunk room
  have whole : c.contents = joinLines CR LF left ++ [] := by
    rw [contents', cut, List.append_nil]
  obtain ⟨b', run, got, _⟩ := parse_whole layout' clean ready whole
  refine ⟨b', ?_, got⟩
  simp only [deliver, IoBuffer.append, put, ok_bind, run]

theorem parsesTo_iff (chunks : List Bytes) {ctx : HttpContext} {b : IoBuffer} {left : List Bytes}
    (layout : b.Layout) (room : b.writerIndex + chunks.flatten.length < 2147483648)
    (clean : ∀ l ∈ left, NoPair CR LF l) (ready : Before ctx left)
    (nonempty : ∀ c ∈ chunks, c ≠ []) (some_ : chunks ≠ [])
    (cut : b.contents ++ chunks.flatten = joinLines CR LF left) :
    ParsesTo (feed ctx left).request ctx b chunks ↔ NoStale b chunks := by
  induction chunks generalizing ctx b left with
  | nil => exact absurd rfl some_
  | cons chunk later ih =>
    simp only [List.flatten_cons, List.length_append] at room cut
    have fits : b.writerIndex + chunk.length < 2147483648 := by omega
    by_cases ended : later = []
    · subst ended
      obtain ⟨b', run, got⟩ := deliver_last layout fits clean ready (by simpa using cut)
      simp only [ParsesTo, NoStale, true_or, iff_true, if_true]
      exact ⟨_, b', run, got, rfl⟩
    · have more : later.flatten ≠ [] := by
        obtain ⟨c, rest, rfl⟩ := List.exists_cons_of_ne_nil ended
        have := nonempty c (by simp)
        simp [this]
      obtain ⟨done, left', b', rfl, drain, layout', open_line, cut', writer', ready', good, bad⟩ :=
        deliver_part layout fits clean ready more (by rw [List.append_assoc]; exact cut)
      have step := ih layout' (by omega) (fun l member => clean l (by simp [member])) ready'
        (fun c member => nonempty c (by simp [member])) ended cut'
      have whole : feed ctx (done ++ left') = feed (feed ctx done) left' := by
        simp [feed]
      simp only [ParsesTo, NoStale, ended, if_false, false_or, drain, whole]
      constructor
      · rintro ⟨ctx', c, run, _, rest⟩
        by_cases quiet : b'.Unambiguous
        · have same := (good quiet).symm.trans run
          simp only [Except.ok.injEq, Prod.mk.injEq, true_and] at same
          obtain ⟨rfl, rfl⟩ := same
          exact ⟨b', rfl, quiet, step.mp rest⟩
        · exact absurd run (bad quiet ctx' c)
      · rintro ⟨c, same, quiet, rest⟩
        cases same
        exact ⟨_, _, good quiet, ready'.not_got, step.mpr rest⟩

/-- `GET / HTTP/1.1` without headers. -/
def rootRequest : CompleteRequest where
  line := ascii "GET / HTTP/1.1"
  headers := []
  lineClean := by decide
  accepted := ⟨_, rfl⟩
  headersClean := by simp
  colons := by simp

/-- For every complete request and every cut of it into non-empty chunks, from every reachable
empty buffer, the chunks are parsed like the whole exactly when the request fits an `int` and no
scan of `findCRLF` between two chunks leaves the vector or meets a stale CR LF. -/
theorem chunking_independent_iff (b : IoBuffer) (reach : b.Reachable)
    (empty : b.readableBytes = 0) (req : CompleteRequest) (chunks : List Bytes)
    (nonempty : ∀ c ∈ chunks, c ≠ []) (cut : chunks.flatten = req.bytes) :
    ChunkingIndependent b req chunks ↔
      req.bytes.length + 8 < 2147483648 ∧ NoStale b chunks := by
  have layout := reach.layout
  have start : b.writerIndex = 8 := by
    have first := layout.empty (by simp only [IoBuffer.readableBytes] at empty; omega)
    simp only [IoBuffer.kCheapPrepend, IoBuffer.readableBytes] at first empty
    omega
  have none : b.contents = [] := by
    have len := IoBuffer.contents_length layout
    exact List.length_eq_zero_iff.mp (by omega)
  have some_ : chunks ≠ [] := by
    rintro rfl
    have long := congrArg List.length cut
    simp [CompleteRequest.bytes, CompleteRequest.lines] at long
  have fresh := IoBuffer.new_layout IoBuffer.kInitialSize
  -- both runs read the same lines, the one over the chunks and the one over the whole
  have reference (small : req.bytes.length + 8 < 2147483648) :
      ∃ b', deliver {} (IoBuffer.new IoBuffer.kInitialSize) req.bytes =
        .ok (true, feed {} req.lines, b') ∧ (feed {} req.lines).gotAll = true :=
    deliver_last fresh (by simp only [IoBuffer.new, IoBuffer.kCheapPrepend]; omega)
      req.lines_clean (.start req) (by rw [IoBuffer.new_contents]; rfl)
  have pieces (small : req.bytes.length + 8 < 2147483648) :
      ParsesTo (feed {} req.lines).request {} b chunks ↔ NoStale b chunks :=
    parsesTo_iff chunks layout (by rw [cut]; omega) req.lines_clean (.start req) nonempty some_
      (by rw [none, cut]; rfl)
  constructor
  · rintro ⟨whole, ctx, b', put, contents, parsed, got, run⟩
    have small : req.bytes.length + 8 < 2147483648 := by
      obtain ⟨high, reader⟩ := IoBuffer.put_bounds put
      have bound : whole.contents.length ≤ whole.readableBytes.toNat := List.length_take_le _ _
      rw [contents] at bound
      simp only [IoBuffer.readableBytes, IoBuffer.new, IoBuffer.kCheapPrepend] at bound reader
      omega
    obtain ⟨c, same, _⟩ := reference small
    simp only [deliver, put, ok_bind, parsed, Except.ok.injEq, Prod.mk.injEq, true_and] at same
    obtain ⟨rfl, _⟩ := same
    exact ⟨small, (pieces small).mp run⟩
  · rintro ⟨small, quiet⟩
    obtain ⟨whole, put, _, contents, _⟩ := IoBuffer.put_spec fresh req.bytes
      (by simp only [IoBuffer.new, IoBuffer.kCheapPrepend]; omega)
    obtain ⟨c, run, got⟩ := reference small
    simp only [deliver, IoBuffer.append, put, ok_bind] at run
    refine ⟨whole, _, c, put, ?_, run, got, (pieces small).mpr quiet⟩
    rw [contents, IoBuffer.new_contents, List.nil_append]

instance noStaleDecidable : (b : IoBuffer) → (chunks : List Bytes) → Decidable (NoStale b chunks)
  | _, [] => .isTrue trivial
  | b, chunk :: later =>
    match run : b.append chunk >>= drained with
    | .ok b' =>
      have := noStaleDecidable b' later
      decidable_of_iff (later = [] ∨ b'.Unambiguous ∧ NoStale b' later) (by simp [NoStale, run])
    | .error f => decidable_of_iff (later = []) (by simp [NoStale, run])

/-- The same with a header. -/
def headerRequest : CompleteRequest where
  line := ascii "GET / HTTP/1.1"
  headers := [ascii "A: b"]
  lineClean := by decide
  accepted := ⟨_, rfl⟩
  headersClean := by decide
  colons := by decide

/-- The request line is cut, and then the header between its CR and LF. -/
theorem chunking_independent_header :
    let chunks := [headerRequest.bytes.take 9, (headerRequest.bytes.drop 9).take 12,
      headerRequest.bytes.drop 21]
    chunks.map List.length = [9, 12, 3] ∧
      NoStale (IoBuffer.new IoBuffer.kInitialSize) chunks ∧
      ChunkingIndependent (IoBuffer.new IoBuffer.kInitialSize) headerRequest chunks := by
  intro chunks
  have quiet : NoStale (IoBuffer.new IoBuffer.kInitialSize) chunks := by decide +kernel
  refine ⟨by decide, quiet, ?_⟩
  exact (chunking_independent_iff _ (.new _) rfl headerRequest chunks (by decide) (by decide)).mpr
    ⟨by decide, quiet⟩

/-- `Put` and `parseRequest` for one chunk after the other, in a build with `NDEBUG`. -/
def deliverNdebug : HttpContext → IoBuffer → List Bytes → Except Fault HttpContext
  | ctx, _, [] => .ok ctx
  | ctx, b, chunk :: later => do
    let (_, ctx, b) ← parseRequestNdebug ctx (← b.append chunk)
    deliverNdebug ctx b later

set_option maxRecDepth 20000 in
/-- A keep-alive connection gets the same request twice, the second time in two pieces. Behind the
first piece the vector still holds the end of the first request, and `findCRLF` finds it. With
`NDEBUG` the parser goes on, and of a second request with a header it loses the header. -/
theorem chunking_dependent : ∃ first held, (IoBuffer.new IoBuffer.kInitialSize).append
      rootRequest.bytes = .ok first ∧
    parseRequest {} first = .ok (true, feed {} rootRequest.lines, held) ∧ held.Reachable ∧
    held.readableBytes = 0 ∧
    deliver {} held (rootRequest.bytes.take 9) = .error .assertion ∧
    ¬ ChunkingIndependent held rootRequest
      [rootRequest.bytes.take 9, rootRequest.bytes.drop 9] ∧
    (feed {} headerRequest.lines).request.headers = [(ascii "A", ascii "b")] ∧
    (deliverNdebug {} held [headerRequest.bytes.take 9, headerRequest.bytes.drop 9]).map
      (fun ctx => (ctx.gotAll, ctx.request.headers)) = .ok (true, []) := by
  have put : (IoBuffer.new IoBuffer.kInitialSize).append rootRequest.bytes =
      .ok ⟨List.replicate 8 0 ++ rootRequest.bytes ++ List.replicate 1006 0, 8, 26⟩ := by
    decide +kernel
  have parsed : parseRequest {} ⟨List.replicate 8 0 ++ rootRequest.bytes ++
      List.replicate 1006 0, 8, 26⟩ = .ok (true, feed {} rootRequest.lines,
        ⟨List.replicate 8 0 ++ rootRequest.bytes ++ List.replicate 1006 0, 8, 8⟩) := by
    decide +kernel
  have sought : IoBuffer.seek ⟨List.replicate 8 0 ++ rootRequest.bytes ++
      List.replicate 1006 0, 8, 26⟩ 18 =
        .ok ⟨List.replicate 8 0 ++ rootRequest.bytes ++ List.replicate 1006 0, 8, 8⟩ := by
    decide +kernel
  have piece : deliver {} ⟨List.replicate 8 0 ++ rootRequest.bytes ++
      List.replicate 1006 0, 8, 8⟩ (rootRequest.bytes.take 9) = .error .assertion := by
    decide +kernel
  refine ⟨_, _, put, parsed, ?_, by decide, piece, ?_, by decide, by decide +kernel⟩
  · have reach := IoBuffer.Reachable.put _ (.new IoBuffer.kInitialSize) (by decide) put
    exact .seek 18 reach (by decide) (by decide) sought
  · rintro ⟨_, _, _, _, _, _, _, _, _, run, _⟩
    rw [piece] at run
    cases run

end HttpContext
end Yamq
