import Yamq.Http.Chunking
import Yamq.Http.RequestLine

/-! Where the header block ends: `parseRequest` looks for a colon, not at the length of the line. -/
namespace Yamq
open PairSearch

theorem splitAtByte_isSome {c : Byte} {l : Bytes} : (splitAtByte c l).isSome ↔ c ∈ l := by
  constructor
  · intro cut
    obtain ⟨⟨front, behind⟩, cut⟩ := Option.isSome_iff_exists.mp cut
    obtain ⟨rfl, _⟩ := splitAtByte_eq_some.mp cut
    simp
  · intro member
    obtain ⟨front, behind, rfl, absent⟩ := List.eq_append_cons_of_mem member
    rw [splitAtByte_append absent]
    rfl

namespace HttpContext

/-- The call returns true. If a line is empty, it ends behind the first such line with `kGotAll`;
otherwise the request is not over. -/
def EndsAtEmptyLine (b : IoBuffer) (lines : List Bytes) : Prop :=
  ∃ ctx b', parseRequest {} b = .ok (true, ctx, b') ∧
    (∀ headers later, lines = headers ++ [] :: later → [] ∉ headers →
      ctx.gotAll = true ∧ b'.contents = joinLines CR LF later) ∧
    ([] ∉ lines → ctx.gotAll = false)

/-- A buffer that holds an accepted request line and header lines, and nothing consumed. -/
structure FirstLines (b : IoBuffer) (line : Bytes) (lines : List Bytes) : Prop where
  reach : b.Reachable
  fresh : b.readerIndex = IoBuffer.kCheapPrepend
  accepted : ∃ ctx, processRequestLine {} line = .ok (true, ctx)
  clean : ∀ l ∈ line :: lines, NoPair CR LF l
  held : b.contents = joinLines CR LF (line :: lines)

section
variable {b : IoBuffer} {line : Bytes} {lines : List Bytes}

theorem accepted_long (accepted : ∃ ctx, processRequestLine {} line = .ok (true, ctx)) :
    8 ≤ line.length := by
  obtain ⟨ctx, run⟩ := accepted
  obtain ⟨l, rfl⟩ := processRequestLine_true run
  have version : l.version.text.length = 8 := by
    have numbered := l.numbered
    generalize l.version = version at numbered
    cases version with
    | kUnknown => exact absurd rfl numbered
    | kHttp10 => decide
    | kHttp11 => decide
  simp only [RequestLine.text, List.length_append, List.length_cons, version]
  omega

/-- Once all lines are consumed, the scan covers the first eight bytes of the request line. -/
theorem FirstLines.consumed {b' : IoBuffer} (first : FirstLines b line lines)
    (seek : b.seek b.contents.length = .ok b') : b'.Unambiguous := by
  obtain ⟨reach, fresh, accepted, clean, held⟩ := first
  have long := accepted_long accepted
  obtain ⟨front, data, back, rfl⟩ := reach.layout.eq_parts
  have eight : front.length = 8 := by
    simp only [IoBuffer.parts, IoBuffer.kCheapPrepend] at fresh
    omega
  rw [IoBuffer.parts_contents] at held seek
  cases (IoBuffer.seek_all ..).symm.trans seek
  subst held
  have scanned : IoBuffer.window ⟨front ++ (joinLines CR LF (line :: lines) ++ back),
      IoBuffer.kCheapPrepend, IoBuffer.kCheapPrepend⟩ = line.take 8 := by
    have start : IoBuffer.kCheapPrepend.toNat = front.length := eight.symm
    rw [IoBuffer.window, start, List.drop_left, joinLines_cons, eight, List.append_assoc,
      List.take_append_of_le_length long]
  refine ⟨?_, ?_⟩
  · simp only [IoBuffer.kCheapPrepend, List.length_append, joinLines_cons]
    omega
  · rw [scanned]
    exact noPair_take (clean line List.mem_cons_self) 8

/-- The request line and the headers before one that has no colon, or before the end. -/
theorem FirstLines.parse_headers {headers left : List Bytes}
    (first : FirstLines b line (headers ++ left)) (colons : ∀ h ∈ headers, 58 ∈ h) :
    ∃ ctx b' fuel, parseRequest {} b = parseLoop (fuel + 1) ctx b' ∧ ctx.state = .kExpectHeaders ∧
      b'.Layout ∧ b'.contents = joinLines CR LF left ∧
      b.seek (joinLines CR LF (line :: headers)).length = .ok b' := by
  obtain ⟨reach, fresh, accepted, clean, held⟩ := first
  have clean_headers : ∀ h ∈ headers, NoPair CR LF h := fun h member =>
    clean h (List.mem_cons_of_mem _ (List.mem_append_left _ member))
  let req : CompleteRequest := ⟨line, headers, clean line List.mem_cons_self, accepted,
    clean_headers, fun h member => splitAtByte_isSome.mpr (colons h member)⟩
  have whole : b.contents = joinLines CR LF (line :: headers) ++ joinLines CR LF left := by
    rw [held, ← joinLines_append]
    rfl
  have clean_done : ∀ l ∈ line :: headers, NoPair CR LF l := by
    intro l member
    rcases List.mem_cons.mp member with rfl | inside
    · exact clean l List.mem_cons_self
    · exact clean_headers l inside
  obtain ⟨b', seek, layout, contents, _, ready, run⟩ := parse_lines (line :: headers) [[]] _
    reach.layout clean_done whole (Before.start req) (List.cons_ne_nil _ _)
  exact ⟨_, b', _, parseRequest_lines reach.layout whole run, ready.last.2, layout, contents, seek⟩

/-- The first line without a colon ends the request, whether it is empty or not. -/
theorem FirstLines.ends_at_colonless {headers later : List Bytes} {l : Bytes}
    (first : FirstLines b line (headers ++ l :: later)) (colons : ∀ h ∈ headers, 58 ∈ h)
    (colonless : 58 ∉ l) :
    ∃ ctx b', parseRequest {} b = .ok (true, ctx, b') ∧ ctx.gotAll = true ∧
      b'.contents = joinLines CR LF later := by
  obtain ⟨ctx, c, fuel, run, state, layout, contents, _⟩ := first.parse_headers colons
  have clean := first.clean l (List.mem_cons_of_mem _ (List.mem_append_right _ List.mem_cons_self))
  have none : splitAtByte 58 l = none := by
    rw [← Option.not_isSome_iff_eq_none, splitAtByte_isSome]
    exact colonless
  have starts : c.contents = l ++ CR :: LF :: joinLines CR LF later := by
    rw [contents, joinLines_cons]
  obtain ⟨d, last, _, rest⟩ := turn_colonless layout clean starts state none
  refine ⟨{ ctx with state := .kGotAll }, d, ?_, rfl, rest⟩
  rw [run, parseLoop, last]
  rfl

/-- Without such a line the call waits for more. -/
theorem FirstLines.waits (first : FirstLines b line lines) (colons : ∀ h ∈ lines, 58 ∈ h) :
    ∃ ctx b', parseRequest {} b = .ok (true, ctx, b') ∧ ctx.gotAll = false := by
  have all : lines ++ [] = lines := List.append_nil lines
  obtain ⟨ctx, c, fuel, run, state, _, _, seek⟩ := (all ▸ first).parse_headers colons
  rw [← first.held] at seek
  have none := IoBuffer.findCRLF_none.mpr (first.consumed seek)
  have wait : turn ctx c = .ok (.done true ctx c) := by
    simp only [turn, state, none, ok_bind, headerTurn]
  refine ⟨ctx, c, ?_, by simp [gotAll, state]⟩
  rw [run, parseLoop, wait]
  rfl

theorem first_colonless {headers : List Bytes} (missing : ¬ ∀ h ∈ headers, 58 ∈ h) :
    ∃ before l mid, headers = before ++ l :: mid ∧ (∀ h ∈ before, 58 ∈ h) ∧ 58 ∉ l := by
  obtain ⟨l, found⟩ : ∃ l, headers.find? (58 ∉ ·) = some l := by
    rw [← Option.isSome_iff_exists, List.find?_isSome]
    simpa using missing
  obtain ⟨colonless, before, mid, whole, colons⟩ := List.find?_eq_some_iff_append.mp found
  exact ⟨before, l, mid, whole, by simpa using colons, of_decide_eq_true colonless⟩

/-- The lines before the first empty one. -/
theorem takeWhile_filled {headers : List Bytes} (none : [] ∉ headers) (left : List Bytes) :
    (headers ++ left).takeWhile (· ≠ []) = headers ++ left.takeWhile (· ≠ []) := by
  refine List.takeWhile_append_of_pos fun h member => ?_
  rw [decide_eq_true_iff]
  rintro rfl
  exact none member

theorem takeWhile_first_empty {headers later : List Bytes} (none : [] ∉ headers) :
    (headers ++ [] :: later).takeWhile (· ≠ []) = headers := by
  rw [takeWhile_filled none]
  exact List.append_nil headers

/-- Without an empty line among them. -/
theorem FirstLines.open_block (first : FirstLines b line lines) (none : [] ∉ lines) :
    EndsAtEmptyLine b lines ↔ ∀ h ∈ lines, 58 ∈ h := by
  constructor
  · rintro ⟨ctx, b', run, _, waits⟩
    by_contra missing
    obtain ⟨before, l, mid, rfl, colons, colonless⟩ := first_colonless missing
    obtain ⟨ctx', c, run', got, _⟩ := first.ends_at_colonless colons colonless
    cases run.symm.trans run'
    rw [waits none] at got
    cases got
  · intro colons
    obtain ⟨ctx, b', run, got⟩ := first.waits colons
    refine ⟨ctx, b', run, ?_, fun _ => got⟩
    rintro before later rfl _
    exact absurd (List.mem_append_right _ List.mem_cons_self) none

/-- With an empty line behind the first headers. -/
theorem FirstLines.ended_block {headers later : List Bytes}
    (first : FirstLines b line (headers ++ [] :: later)) (none : [] ∉ headers) :
    EndsAtEmptyLine b (headers ++ [] :: later) ↔ ∀ h ∈ headers, 58 ∈ h := by
  constructor
  · rintro ⟨ctx, b', run, ends, _⟩
    by_contra missing
    obtain ⟨before, l, mid, rfl, colons, colonless⟩ := first_colonless missing
    have split : before ++ l :: mid ++ [] :: later = before ++ l :: (mid ++ [] :: later) :=
      List.append_assoc before (l :: mid) ([] :: later)
    obtain ⟨ctx', c, run', _, rest⟩ := (split ▸ first).ends_at_colonless colons colonless
    cases run.symm.trans run'
    -- what is left is one line more than it should be
    have shorter := (ends _ later rfl none).2
    have lengths := congrArg List.length (rest.symm.trans shorter)
    rw [joinLines_append, joinLines_cons] at lengths
    simp only [List.length_append, List.length_cons] at lengths
    omega
  · intro colons
    obtain ⟨ctx, b', run, got, rest⟩ := first.ends_at_colonless colons List.not_mem_nil
    refine ⟨ctx, b', run, ?_, fun absent =>
      absurd (List.mem_append_right _ List.mem_cons_self) absent⟩
    intro headers' later' same none'
    have front := congrArg (List.takeWhile (· ≠ [])) same
    rw [takeWhile_first_empty none, takeWhile_first_empty none'] at front
    subst front
    cases List.append_cancel_left same
    exact ⟨got, rest⟩

/-- For every sequence of lines behind an accepted request line: the request ends at the empty line
exactly when every line before it has a colon. -/
theorem ends_at_empty_line_iff (first : FirstLines b line lines) :
    EndsAtEmptyLine b lines ↔ ∀ h ∈ lines.takeWhile (· ≠ []), 58 ∈ h := by
  by_cases empty : [] ∈ lines
  · obtain ⟨headers, later, rfl, none⟩ := List.eq_append_cons_of_mem empty
    rw [takeWhile_first_empty none]
    exact first.ended_block none
  · have all := takeWhile_filled empty []
    simp only [List.append_nil, List.takeWhile_nil] at all
    rw [all]
    exact first.open_block empty

end

/-- A fresh buffer behind the `Put` of these lines. -/
def holding (lines : List Bytes) : IoBuffer :=
  ⟨List.replicate 8 0 ++ joinLines CR LF lines ++
    List.replicate (1024 - (joinLines CR LF lines).length) 0, 8, 8 + (joinLines CR LF lines).length⟩

theorem holding_root : FirstLines (holding [ascii "GET / HTTP/1.1", ascii "a:b", []])
    (ascii "GET / HTTP/1.1") [ascii "a:b", []] where
  reach := .put (joinLines CR LF [ascii "GET / HTTP/1.1", ascii "a:b", []]) (.new 1024) (by decide)
    (by decide +kernel)
  fresh := by decide
  accepted := ⟨_, rfl⟩
  clean := by decide
  held := by decide

theorem ends_at_empty_line_root :
    EndsAtEmptyLine (holding [ascii "GET / HTTP/1.1", ascii "a:b", []]) [ascii "a:b", []] :=
  (ends_at_empty_line_iff holding_root).mpr (by decide)

/-- A line `x` among the headers: the request ends there, and the header line behind it is taken for
the request line of the next request. -/
theorem header_taken_for_request : ∃ b, FirstLines b (ascii "GET / HTTP/1.1")
      [ascii "x", ascii "GET /b HTTP/1.1", []] ∧
    ¬ EndsAtEmptyLine b [ascii "x", ascii "GET /b HTTP/1.1", []] ∧
    ∃ ctx b', parseRequest {} b = .ok (true, ctx, b') ∧ ctx.gotAll = true ∧
      ∃ ctx' b'', parseRequest {} b' = .ok (true, ctx', b'') ∧ ctx'.gotAll = true ∧
        ctx'.request.path = ascii "/b" := by
  have vector : (holding [ascii "GET / HTTP/1.1", ascii "x", ascii "GET /b HTTP/1.1", []]).Reachable :=
    .put (joinLines CR LF [ascii "GET / HTTP/1.1", ascii "x", ascii "GET /b HTTP/1.1", []])
      (.new 1024) (by decide) (by decide +kernel)
  have first : parseRequest {} (holding [ascii "GET / HTTP/1.1", ascii "x",
      ascii "GET /b HTTP/1.1", []]) = .ok (true, ⟨.kGotAll, ⟨.kGet, .kHttp11, ascii "/", [], []⟩⟩,
        { holding [ascii "GET / HTTP/1.1", ascii "x", ascii "GET /b HTTP/1.1", []] with
          readerIndex := 27 }) := by
    decide +kernel
  have second : parseRequest {} { holding [ascii "GET / HTTP/1.1", ascii "x",
      ascii "GET /b HTTP/1.1", []] with readerIndex := 27 } =
        .ok (true, ⟨.kGotAll, ⟨.kGet, .kHttp11, ascii "/b", [], []⟩⟩,
          { holding [ascii "GET / HTTP/1.1", ascii "x", ascii "GET /b HTTP/1.1", []] with
            readerIndex := 8, writerIndex := 8 }) := by
    decide +kernel
  refine ⟨_, ⟨vector, by decide, ⟨_, rfl⟩, by decide, by decide +kernel⟩, ?_, _, _, first, rfl, _, _,
    second, rfl, rfl⟩
  rintro ⟨ctx, b', run, ends, _⟩
  cases first.symm.trans run
  have left := (ends [ascii "x", ascii "GET /b HTTP/1.1"] [] rfl (by decide)).2
  revert left
  decide +kernel

end HttpContext
end Yamq
