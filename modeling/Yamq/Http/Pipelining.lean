import Yamq.Http.Chunking
import Yamq.Http.HttpServer
import Mathlib.Algebra.GroupWithZero.Nat

/-! Several requests on one connection, with a `findCRLF` that reports the first CR LF among the
readable bytes. One `onMessage` answers one request at most. -/
namespace Yamq
open PairSearch

/-- The search that `findCRLF` stands for. -/
def IoBuffer.firstCRLF (b : IoBuffer) : Except Fault (Option Int) :=
  .ok ((findPair CR LF b.contents).map fun i => b.readerIndex + i)

namespace CompleteRequest

/-- What the parser makes of a request. -/
def parsed (r : CompleteRequest) : HttpRequest := (HttpContext.feed {} r.lines).request

end CompleteRequest

namespace HttpServer
open HttpContext

def onMessageFirst (cb : HttpCallback) (ctx : HttpContext) (b : IoBuffer) :
    Except Fault (List ConnCall × HttpContext × IoBuffer) :=
  onMessage (parseRequestWith IoBuffer.firstCRLF) cb ctx b

/-- How many requests are complete in the first `n` bytes of their concatenation. -/
def completeIn : List CompleteRequest → Nat → Nat
  | [], _ => 0
  | r :: rs, n => if r.bytes.length ≤ n then completeIn rs (n - r.bytes.length) + 1 else 0

/-- The calls are the responses to these requests, in order. -/
def Responds (cb : HttpCallback) (reqs : List CompleteRequest) (calls : List ConnCall) : Prop :=
  (∀ r ∈ reqs, (response cb r.parsed).Buffered) ∧
    calls = reqs.map fun r => .send (response cb r.parsed).bytes

/-- The bytes of the next request that are there, once `n` requests are answered. -/
def rest (reqs : List CompleteRequest) (held n : Nat) : Nat :=
  held - ((reqs.take n).map fun r => r.bytes.length).sum

/-- Each `onMessage` answers all requests that its chunk completes, and in the end all are answered.
`reqs` are the requests without a response; `held` bytes of the first of them have come. -/
def AnswersInTime (cb : HttpCallback) :
    HttpContext → IoBuffer → List CompleteRequest → Nat → List Bytes → Prop
  | _, _, reqs, _, [] => reqs = []
  | ctx, b, reqs, held, chunk :: later => ∃ c calls ctx' b',
      b.retrieve (.bytes chunk) = .ok (chunk.length, c) ∧ c.contents = b.contents ++ chunk ∧
      onMessageFirst cb ctx c = .ok (calls, ctx', b') ∧
      let n := completeIn reqs (held + chunk.length)
      Responds cb (reqs.take n) calls ∧
        AnswersInTime cb ctx' b' (reqs.drop n) (rest reqs (held + chunk.length) n) later

/-- No chunk holds the ends of two requests. -/
def OneEndEach : List CompleteRequest → Nat → List Bytes → Prop
  | _, _, [] => True
  | reqs, held, chunk :: later =>
    let n := completeIn reqs (held + chunk.length)
    n ≤ 1 ∧ OneEndEach (reqs.drop n) (rest reqs (held + chunk.length) n) later

/-- Each chunk fits the input buffer when it comes. -/
def PutsFit (cb : HttpCallback) : HttpContext → IoBuffer → List Bytes → Prop
  | _, _, [] => True
  | ctx, b, chunk :: later => b.PutFits chunk.length ∧ ∀ c calls ctx' b',
      b.retrieve (.bytes chunk) = .ok (chunk.length, c) →
      onMessageFirst cb ctx c = .ok (calls, ctx', b') → PutsFit cb ctx' b' later

/-- A request after which the connection stays open. -/
def KeepsAlive (cb : HttpCallback) (r : CompleteRequest) : Prop :=
  (response cb r.parsed).closeConnection = false

section
variable {ctx : HttpContext} {b : IoBuffer} {line tail : Bytes}

/-- On a line that is whole the two searches agree. -/
theorem turn_first (layout : b.Layout) (clean : NoPair CR LF line)
    (starts : b.contents = line ++ CR :: LF :: tail) :
    turnWith IoBuffer.firstCRLF ctx b = turn ctx b := by
  have same : b.firstCRLF = b.findCRLF := by
    rw [IoBuffer.findCRLF_line layout clean starts, IoBuffer.firstCRLF, starts,
      findPair_line CR_ne_LF clean]
    rfl
  unfold turnWith turn
  rw [same]

theorem turn_first_wait {left : List Bytes} (ready : Before ctx left)
    (open_line : NoPair CR LF b.contents) :
    turnWith IoBuffer.firstCRLF ctx b = .ok (.done true ctx b) := by
  have none : b.firstCRLF = .ok none := by
    rw [IoBuffer.firstCRLF, (findPair_none ..).mpr open_line]
    rfl
  cases ready with
  | start req => simp [turnWith, none, requestLineTurn]
  | headers state _ => simp [turnWith, state, none, headerTurn]

end

theorem seek_keeps_small {b b' : IoBuffer} (h : b.Small) {k : Nat} (inside : k ≤ b.contents.length)
    (run : b.seek (k : Nat) = .ok b') : b'.Small := by
  have len := IoBuffer.contents_length h.toLayout
  have range := h.range
  have prepend := h.prepend
  simp only [IoBuffer.readableBytes, IoBuffer.kCheapPrepend] at len prepend
  obtain ⟨c, run', small, _⟩ := IoBuffer.seek_small h inside
  rw [toInt_small (by omega) (by omega)] at run'
  cases run'.symm.trans run
  exact small

theorem lines_first (done left : List Bytes) (tail : Bytes) {ctx : HttpContext} {b : IoBuffer}
    (small : b.Small) (clean : ∀ l ∈ done, NoPair CR LF l)
    (starts : b.contents = joinLines CR LF done ++ tail) (ready : Before ctx (done ++ left))
    (more : left ≠ []) :
    ∃ b', b'.Small ∧ b'.contents = tail ∧ Before (feed ctx done) left ∧
      ∀ fuel, parseLoopWith IoBuffer.firstCRLF (done.length + fuel) ctx b =
        parseLoopWith IoBuffer.firstCRLF fuel (feed ctx done) b' := by
  induction done generalizing ctx b with
  | nil => exact ⟨b, small, by simpa using starts, ready, fun fuel => by simp [feed]⟩
  | cons line done ih =>
    have front : b.contents = line ++ CR :: LF :: (joinLines CR LF done ++ tail) := by
      simpa using starts
    have some_left : done ++ left ≠ [] := by simp [more]
    have here := clean line (by simp)
    obtain ⟨c, first, seek, _, contents, _⟩ := turn_line small.toLayout here front ready some_left
    have inside : line.length + 2 ≤ b.contents.length := by
      rw [front]
      simp only [List.length_append, List.length_cons]
      omega
    have small' := seek_keeps_small small inside seek
    obtain ⟨d, small'', contents', ready', run⟩ := ih small' (fun l member => clean l (by simp [member]))
      contents (ready.next some_left)
    refine ⟨d, small'', contents', ready', fun fuel => ?_⟩
    rw [List.length_cons, show done.length + 1 + fuel = done.length + fuel + 1 by omega]
    simp only [parseLoopWith, turn_first small.toLayout here front, first, ok_bind]
    exact run fuel

theorem parse_first {ctx : HttpContext} {c b' : IoBuffer} {done : List Bytes} {tail : Bytes}
    (layout : c.Layout) (whole : c.contents = joinLines CR LF done ++ tail)
    (run : ∀ fuel, parseLoopWith IoBuffer.firstCRLF (done.length + fuel) ctx c =
      parseLoopWith IoBuffer.firstCRLF fuel (feed ctx done) b') :
    parseRequestWith IoBuffer.firstCRLF ctx c = parseLoopWith IoBuffer.firstCRLF
      (c.readableBytes.toNat - done.length + 1) (feed ctx done) b' := by
  have len := IoBuffer.contents_length layout
  have total : c.contents.length = (joinLines CR LF done).length + tail.length := by
    rw [whole, List.length_append]
  have lines := joinLines_length CR LF done
  rw [← run, parseRequestWith]
  congr 1
  omega

/-- A buffer that holds the rest of a request: the parser takes it and stops behind it. -/
theorem parse_whole {ctx : HttpContext} {c : IoBuffer} {left : List Bytes} {tail : Bytes}
    (small : c.Small) (clean : ∀ l ∈ left, NoPair CR LF l) (ready : Before ctx left)
    (whole : c.contents = joinLines CR LF left ++ tail) :
    ∃ b', parseRequestWith IoBuffer.firstCRLF ctx c = .ok (true, feed ctx left, b') ∧
      (feed ctx left).gotAll = true ∧ b'.Small ∧ b'.contents = tail := by
  obtain rfl | ⟨init, line, rfl⟩ := List.eq_nil_or_concat left
  · generalize hl : ([] : List Bytes) = all at ready
    cases ready with
    | start req => cases hl
    | headers _ _ => simp at hl
  · have lines : c.contents = joinLines CR LF init ++ (line ++ CR :: LF :: tail) := by
      rw [whole]
      simp
    obtain ⟨b', small', contents', ready', run⟩ := lines_first init [line] _ small
      (fun l member => clean l (by simp [member])) lines (by simpa using ready) (by simp)
    obtain ⟨rfl, state⟩ := ready'.last
    obtain ⟨d, last, _, contents''⟩ := turn_last small'.toLayout contents' state
    have parsed := parse_first small.toLayout lines run
    have end_ : feed ctx (init.concat []) = feedLine (feed ctx init) [] := by
      simp [feed]
    have empty : NoPair CR LF ([] : Bytes) := by simp [NoPair, PairAt]
    have smallD : d.Small := by
      obtain ⟨_, e, until_, seek, _⟩ := cut_line small'.toLayout contents'
      have first := @turn_first (feed ctx init) _ _ _ small'.toLayout empty contents'
      have inside : ([] : Bytes).length + 2 ≤ b'.contents.length := by
        rw [contents']
        simp
      have smallE := seek_keeps_small small' inside seek
      have same : turn (feed ctx init) b' = .ok (.done true (feedLine (feed ctx init) []) e) := by
        have found := IoBuffer.findCRLF_line small'.toLayout empty contents'
        have split : splitAtByte 58 [] = none := rfl
        obtain ⟨cut, _⟩ := cut_line small'.toLayout contents'
        have zero : ((([] : Bytes).length : Nat) : Int) = 0 := rfl
        rw [zero, Int.add_zero] at cut until_ found
        simp [turn, state, found, headerTurn, cut, split, until_, feedLine]
      cases last.symm.trans same
      exact smallE
    refine ⟨d, ?_, ?_, smallD, contents''⟩
    · have first := @turn_first (feed ctx init) _ _ _ small'.toLayout empty contents'
      simp only [parsed, parseLoopWith, first, last, ok_bind, pure_ok, end_]
    · have split : splitAtByte 58 [] = none := rfl
      rw [end_]
      simp [feedLine, state, split, gotAll]

/-- A buffer that does not hold it yet: the parser takes the whole lines and waits. -/
theorem parse_part {ctx : HttpContext} {c : IoBuffer} {left : List Bytes} {back : Bytes}
    (small : c.Small) (clean : ∀ l ∈ left, NoPair CR LF l) (ready : Before ctx left)
    (unfinished : back ≠ []) (cut : c.contents ++ back = joinLines CR LF left) :
    ∃ done left' b', left = done ++ left' ∧
      parseRequestWith IoBuffer.firstCRLF ctx c = .ok (true, feed ctx done, b') ∧
      Before (feed ctx done) left' ∧ b'.Small ∧ b'.contents ++ back = joinLines CR LF left' := by
  obtain ⟨done, left', tail, rfl, whole, open_line, remains⟩ :=
    prefix_of_lines CR_ne_LF left clean _ _ cut
  have more : left' ≠ [] := by
    rintro rfl
    exact unfinished (List.append_eq_nil_iff.mp remains).2
  obtain ⟨b', small', contents', ready', run⟩ := lines_first done left' tail small
    (fun l member => clean l (by simp [member])) whole ready more
  have parsed := parse_first small.toLayout whole run
  refine ⟨done, left', b', rfl, ?_, ready', small', by rwa [contents']⟩
  have wait := turn_first_wait ready' (by rwa [contents'] : NoPair CR LF b'.contents)
  simp only [parsed, parseLoopWith, wait, ok_bind, pure_ok]

/-! One chunk. -/

/-- Between two chunks: what is left of the first request without a response, of which the buffer
holds a part, and the requests behind it. -/
inductive Stands : HttpContext → Bytes → Bytes → List CompleteRequest → Nat → Prop where
  | done : Stands {} [] [] [] 0
  | within {contents future : Bytes} {r : CompleteRequest} {rs : List CompleteRequest}
      {done left : List Bytes} {held : Nat} (lines : r.lines = done ++ left)
      (ready : Before (feed {} done) left)
      (part : contents.length < (joinLines CR LF left).length)
      (length : held + (joinLines CR LF left).length = r.bytes.length + contents.length)
      (cut : contents ++ future = joinLines CR LF left ++ rs.flatMap CompleteRequest.bytes) :
      Stands (feed {} done) contents future (r :: rs) held

theorem Stands.fresh {contents future : Bytes} {reqs : List CompleteRequest}
    (cut : contents ++ future = reqs.flatMap CompleteRequest.bytes)
    (open_ : completeIn reqs contents.length = 0) :
    Stands {} contents future reqs contents.length := by
  cases reqs with
  | nil =>
    obtain ⟨rfl, rfl⟩ := List.append_eq_nil_iff.mp cut
    exact .done
  | cons r rs =>
    rw [List.flatMap_cons] at cut
    have short : contents.length < r.bytes.length := by
      rw [completeIn] at open_
      split at open_
      · cases open_
      · omega
    exact @Stands.within _ _ r rs [] r.lines _ rfl (.start r) short (Nat.add_comm ..) cut

theorem completeIn_le (reqs : List CompleteRequest) (n : Nat) : completeIn reqs n ≤ reqs.length := by
  induction reqs generalizing n with
  | nil => exact Nat.le_refl 0
  | cons r rs ih =>
    rw [completeIn]
    split
    · exact Nat.succ_le_succ (ih _)
    · exact Nat.zero_le _

section
variable {cb : HttpCallback} {ctx ctx' : HttpContext} {b c b' : IoBuffer} {chunk : Bytes}
  {later : List Bytes} {reqs : List CompleteRequest} {held : Nat} {calls : List ConnCall}

/-- A chunk that completes one request at most, and what is left to show for the chunks behind it. -/
theorem answersInTime_cons (read : b.retrieve (.bytes chunk) = .ok (chunk.length, c))
    (contents : c.contents = b.contents ++ chunk)
    (message : onMessageFirst cb ctx c = .ok (calls, ctx', b'))
    (answered : Responds cb (reqs.take (completeIn reqs (held + chunk.length))) calls) :
    AnswersInTime cb ctx b reqs held (chunk :: later) ↔
      AnswersInTime cb ctx' b' (reqs.drop (completeIn reqs (held + chunk.length)))
        (rest reqs (held + chunk.length) (completeIn reqs (held + chunk.length))) later := by
  constructor
  · rintro ⟨d, calls', ctx'', b'', read', _, message', _, behind⟩
    cases read.symm.trans read'
    cases message.symm.trans message'
    exact behind
  · intro behind
    exact ⟨c, calls, ctx', b', read, contents, message, answered, behind⟩

theorem putsFit_cons (fits : b.PutFits chunk.length)
    (read : b.retrieve (.bytes chunk) = .ok (chunk.length, c))
    (message : onMessageFirst cb ctx c = .ok (calls, ctx', b')) :
    PutsFit cb ctx b (chunk :: later) ↔ PutsFit cb ctx' b' later := by
  constructor
  · rintro ⟨_, behind⟩
    exact behind c calls ctx' b' read message
  · intro behind
    refine ⟨fits, ?_⟩
    intro d calls' ctx'' b'' read' message'
    cases read.symm.trans read'
    cases message.symm.trans message'
    exact behind

end

section
variable {cb : HttpCallback} {b : IoBuffer} {chunk : Bytes} {later : List Bytes}

/-- The chunk holds the end of the first request: its response is sent, and what is behind the
request stays in the buffer. -/
theorem onMessage_whole {c : IoBuffer} {r : CompleteRequest} {done left : List Bytes} {tail : Bytes}
    (small : c.Small) (lines : r.lines = done ++ left) (ready : Before (feed {} done) left)
    (whole : c.contents = joinLines CR LF left ++ tail) (alive : KeepsAlive cb r) :
    ∃ b', b'.Small ∧ b'.contents = tail ∧ ((response cb r.parsed).Buffered →
      onMessageFirst cb (feed {} done) c =
        .ok ([.send (response cb r.parsed).bytes], {}, b')) := by
  obtain ⟨b', parsed, got, small', contents'⟩ := parse_whole small
    (fun l member => r.lines_clean l (by simp [lines, member])) ready whole
  have all : feed (feed {} done) left = feed {} r.lines := by
    simp [feed, lines]
  refine ⟨b', small', contents', fun buffered => ?_⟩
  have made : onRequest cb r.parsed = .ok [.send (response cb r.parsed).bytes] := by
    rw [onRequest_sends buffered, show (response cb r.parsed).closeConnection = false from alive]
    rfl
  rw [CompleteRequest.parsed] at made ⊢
  rw [all] at parsed got
  simp only [onMessageFirst, onMessage, parsed, ok_bind, answer, got, if_true, made, pure_ok,
    List.nil_append, HttpContext.reset]

/-- It does not: nothing is sent. -/
theorem onMessage_part {c : IoBuffer} {r : CompleteRequest} {done left : List Bytes} {back : Bytes}
    (small : c.Small) (lines : r.lines = done ++ left) (ready : Before (feed {} done) left)
    (unfinished : back ≠ []) (cut : c.contents ++ back = joinLines CR LF left) :
    ∃ done' left' b', b'.Small ∧ r.lines = done' ++ left' ∧ Before (feed {} done') left' ∧
      b'.contents ++ back = joinLines CR LF left' ∧
      onMessageFirst cb (feed {} done) c = .ok ([], feed {} done', b') := by
  obtain ⟨now, left', b', rfl, parsed, ready', small', cut'⟩ := parse_part small
    (fun l member => r.lines_clean l (by simp [lines, member])) ready unfinished cut
  have both : feed (feed {} done) now = feed {} (done ++ now) := by
    simp [feed]
  rw [both] at parsed ready'
  refine ⟨done ++ now, left', b', small', ?_, ready', cut', ?_⟩
  · rw [lines, List.append_assoc]
  · simp only [onMessageFirst, onMessage, parsed, ok_bind, answer, ready'.not_got,
      Bool.false_eq_true, if_false, pure_ok, if_true, List.nil_append]

/-- A chunk either holds the end of the first request or stays within it. -/
theorem whole_or_part {contents future all behind : Bytes} (cut : contents ++ future = all ++ behind) :
    (∃ tail, contents = all ++ tail ∧ tail ++ future = behind) ∨
      ∃ back, back ≠ [] ∧ contents ++ back = all ∧ future = back ++ behind := by
  rcases List.append_eq_append_iff.mp cut with ⟨back, same, rest⟩ | ⟨tail, same, rest⟩
  · by_cases none : back = []
    · subst none
      exact .inl ⟨[], by simpa using same.symm, by simpa using rest⟩
    · exact .inr ⟨back, none, same.symm, rest⟩
  · exact .inl ⟨tail, same, rest.symm⟩

/-- One chunk, wherever the parser stands: the first request whose end it holds is answered, and no
other. -/
theorem onMessage_stands {ctx : HttpContext} {c : IoBuffer} {old future : Bytes}
    {reqs : List CompleteRequest} {held : Nat} (small : c.Small) (contents : c.contents = old ++ chunk)
    (some_ : chunk ≠ []) (stands : Stands ctx old (chunk ++ future) reqs held)
    (alive : ∀ r ∈ reqs, KeepsAlive cb r)
    (buffered : ∀ r ∈ reqs.take (completeIn reqs (held + chunk.length)), (response cb r.parsed).Buffered) :
    ∃ calls ctx' b', onMessageFirst cb ctx c = .ok (calls, ctx', b') ∧ b'.Small ∧
      calls = (reqs.take (min (completeIn reqs (held + chunk.length)) 1)).map
        (fun r => .send (response cb r.parsed).bytes) ∧
      (completeIn reqs (held + chunk.length) ≤ 1 → Stands ctx' b'.contents future
        (reqs.drop (completeIn reqs (held + chunk.length)))
        (rest reqs (held + chunk.length) (completeIn reqs (held + chunk.length)))) := by
  generalize hf : chunk ++ future = all at stands
  cases stands with
  | done => exact absurd (List.append_eq_nil_iff.mp hf).1 some_
  | @within _ _ r rs done left _ lines ready part length cut =>
    subst hf
    rw [← List.append_assoc, ← contents] at cut
    have size : c.contents.length = old.length + chunk.length := by
      rw [contents, List.length_append]
    rcases whole_or_part cut with ⟨tail, whole, behind⟩ | ⟨back, unfinished, inside, behind⟩
    · have long := congrArg List.length whole
      rw [List.length_append] at long
      have ended : r.bytes.length ≤ held + chunk.length := by omega
      have left_ : held + chunk.length - r.bytes.length = tail.length := by omega
      have counts : completeIn (r :: rs) (held + chunk.length) = completeIn rs tail.length + 1 := by
        rw [completeIn, if_pos ended, left_]
      rw [counts] at buffered ⊢
      obtain ⟨b', small', contents', sends⟩ := onMessage_whole small lines ready whole (alive r (by simp))
      refine ⟨_, _, b', sends (buffered r (by simp)), small', by simp, ?_⟩
      intro one
      have none : completeIn rs tail.length = 0 := by omega
      have fresh := Stands.fresh behind none
      rw [none]
      simpa [rest, contents', left_] using fresh
    · have long := congrArg List.length inside
      rw [List.length_append] at long
      have more := List.length_pos_iff.mpr unfinished
      have short : ¬ r.bytes.length ≤ held + chunk.length := by omega
      have counts : completeIn (r :: rs) (held + chunk.length) = 0 := by
        rw [completeIn, if_neg short]
      rw [counts]
      obtain ⟨done', left', b', small', lines', ready', inside', message⟩ :=
        @onMessage_part cb _ _ _ _ _ small lines ready unfinished inside
      refine ⟨_, _, b', message, small', by simp, ?_⟩
      intro _
      have long' := congrArg List.length inside'
      rw [List.length_append] at long'
      apply Stands.within lines' ready' (by omega)
      · simp only [rest, List.take_zero, List.map_nil, List.sum_nil]
        omega
      · rw [behind, ← List.append_assoc, inside']

theorem answersInTime_from (chunks : List Bytes) {ctx : HttpContext} {b : IoBuffer}
    {reqs : List CompleteRequest} {held : Nat} (small : b.Small)
    (stands : Stands ctx b.contents chunks.flatten reqs held) (alive : ∀ r ∈ reqs, KeepsAlive cb r)
    (nonempty : ∀ c ∈ chunks, c ≠ []) :
    AnswersInTime cb ctx b reqs held chunks ↔
      OneEndEach reqs held chunks ∧ PutsFit cb ctx b chunks ∧
        ∀ r ∈ reqs, (response cb r.parsed).bytes.length + 8 < 2147483648 := by
  induction chunks generalizing ctx b reqs held with
  | nil =>
    generalize hb : b.contents = contents at stands
    cases stands with
    | done => simp [AnswersInTime, OneEndEach, PutsFit]
    | within _ _ part _ cut =>
      have long := congrArg List.length cut
      simp only [List.flatten_nil, List.append_nil, List.length_append] at long
      omega
  | cons chunk later ih =>
    have some_ := nonempty chunk (by simp)
    by_cases fits : b.PutFits chunk.length
    · obtain ⟨c, read, smallC, contents⟩ := IoBuffer.retrieve_fits small chunk fits some_
      generalize count : completeIn reqs (held + chunk.length) = n
      by_cases buffered : ∀ r ∈ reqs.take n, (response cb r.parsed).Buffered
      · subst count
        obtain ⟨calls, ctx', b', message, small', sent, next⟩ :=
          onMessage_stands smallC contents some_ stands alive buffered
        generalize count : completeIn reqs (held + chunk.length) = n at *
        by_cases one : n ≤ 1
        · have answered : Responds cb (reqs.take n) calls := ⟨buffered, by rw [sent, Nat.min_eq_left one]⟩
          subst count
          have behind := ih small' (next one)
            (fun r member => alive r (List.mem_of_mem_drop member))
            (fun c member => nonempty c (by simp [member]))
          rw [answersInTime_cons read contents message answered, putsFit_cons fits read message, behind]
          constructor
          · rintro ⟨ends, puts, sizes⟩
            refine ⟨⟨one, ends⟩, puts, fun r member => ?_⟩
            rw [← List.take_append_drop (completeIn reqs (held + chunk.length)) reqs,
              List.mem_append] at member
            rcases member with now | later
            · exact (HttpResponse.buffered_iff _).mp (buffered r now)
            · exact sizes r later
          · rintro ⟨⟨_, ends⟩, puts, sizes⟩
            exact ⟨ends, puts, fun r member => sizes r (List.mem_of_mem_drop member)⟩
        · -- the second of the requests is not answered
          constructor
          · rintro ⟨d, calls', ctx'', b'', read', _, message', answered, _⟩
            cases read.symm.trans read'
            cases message.symm.trans message'
            have many := congrArg List.length (answered.2.symm.trans sent)
            have all := completeIn_le reqs (held + chunk.length)
            simp only [count, List.length_map, List.length_take] at many all
            omega
          · rintro ⟨⟨ends, _⟩, _⟩
            rw [count] at ends
            exact absurd ends one
      · subst count
        constructor
        · rintro ⟨_, _, _, _, _, _, _, answered, _⟩
          exact absurd answered.1 buffered
        · rintro ⟨_, _, sizes⟩
          refine absurd (fun r member => ?_) buffered
          exact (HttpResponse.buffered_iff _).mpr (sizes r (List.mem_of_mem_take member))
    · constructor
      · rintro ⟨c, _, _, _, read, kept, _⟩
        exact absurd (IoBuffer.fits_of_retrieve small read kept) fits
      · rintro ⟨_, puts, _⟩
        exact absurd puts.1 fits

end

/-- For all requests after which the connection stays open, and every division of their bytes into
chunks: all are answered in time exactly when no chunk holds the ends of two of them (and the
chunks and the responses fit their buffers). -/
theorem answers_in_time_iff (cb : HttpCallback) (reqs : List CompleteRequest)
    (alive : ∀ r ∈ reqs, KeepsAlive cb r) (chunks : List Bytes) (nonempty : ∀ c ∈ chunks, c ≠ [])
    (cut : chunks.flatten = reqs.flatMap CompleteRequest.bytes) :
    AnswersInTime cb {} (.new IoBuffer.kInitialSize) reqs 0 chunks ↔
      OneEndEach reqs 0 chunks ∧ PutsFit cb {} (.new IoBuffer.kInitialSize) chunks ∧
        ∀ r ∈ reqs, (response cb r.parsed).bytes.length + 8 < 2147483648 := by
  have start : Stands {} (IoBuffer.new IoBuffer.kInitialSize).contents chunks.flatten reqs 0 := by
    rw [IoBuffer.new_contents]
    apply Stands.fresh cut
    cases reqs with
    | nil => rfl
    | cons r rs =>
      have some_ : ¬ r.bytes.length ≤ ([] : Bytes).length := by
        simp [CompleteRequest.bytes, CompleteRequest.lines]
      rw [completeIn, if_neg some_]
  exact answersInTime_from chunks (IoBuffer.new_small _ (by decide)) start alive nonempty

/-- A callback that leaves the connection open. -/
def pong : HttpCallback := fun _ resp => (resp.setBody (ascii "pong")).setCloseConnection false

/-- The first chunk holds the first request and the front of the second, and each is answered when it ends. -/
theorem answers_in_time_separate :
    AnswersInTime pong {} (.new IoBuffer.kInitialSize) [rootRequest, rootRequest] 0
      [rootRequest.bytes ++ rootRequest.bytes.take 7, rootRequest.bytes.drop 7] := by
  have alive : ∀ r ∈ [rootRequest, rootRequest], KeepsAlive pong r := by
    simp [KeepsAlive, response, pong, HttpResponse.setBody, HttpResponse.setCloseConnection]
  have read : (IoBuffer.new IoBuffer.kInitialSize).retrieve
      (.bytes (rootRequest.bytes ++ rootRequest.bytes.take 7)) = .ok (25, ⟨List.replicate 8 0 ++
        (rootRequest.bytes ++ rootRequest.bytes.take 7) ++ List.replicate 999 0, 8, 33⟩) := by
    decide +kernel
  have message : onMessageFirst pong {} ⟨List.replicate 8 0 ++
      (rootRequest.bytes ++ rootRequest.bytes.take 7) ++ List.replicate 999 0, 8, 33⟩ =
      .ok ([.send (response pong rootRequest.parsed).bytes], {}, ⟨List.replicate 8 0 ++
        (rootRequest.bytes ++ rootRequest.bytes.take 7) ++ List.replicate 999 0, 26, 33⟩) := by
    decide +kernel
  refine (answers_in_time_iff pong [rootRequest, rootRequest] alive _ (by decide) (by decide)).mpr
    ⟨⟨by decide, by decide, trivial⟩, ⟨by decide, ?_⟩, by decide⟩
  intro c calls ctx b' read' message'
  cases read.symm.trans read'
  cases message.symm.trans message'
  exact ⟨by decide, fun _ _ _ _ _ _ => trivial⟩

set_option maxRecDepth 20000 in
/-- Two requests in one chunk: one is answered, the other stays unparsed in the buffer. -/
theorem answers_first_only : ∃ c ctx b', KeepsAlive pong rootRequest ∧
    (IoBuffer.new IoBuffer.kInitialSize).retrieve (.bytes (rootRequest.bytes ++ rootRequest.bytes)) =
      .ok (36, c) ∧
    onMessageFirst pong {} c = .ok ([.send (response pong rootRequest.parsed).bytes], ctx, b') ∧
    b'.contents = rootRequest.bytes ∧
    ¬ AnswersInTime pong {} (.new IoBuffer.kInitialSize) [rootRequest, rootRequest] 0
      [rootRequest.bytes ++ rootRequest.bytes] := by
  have read : (IoBuffer.new IoBuffer.kInitialSize).retrieve
      (.bytes (rootRequest.bytes ++ rootRequest.bytes)) = .ok (36, ⟨List.replicate 8 0 ++
        (rootRequest.bytes ++ rootRequest.bytes) ++ List.replicate 988 0, 8, 44⟩) := by
    decide +kernel
  have message : onMessageFirst pong {} ⟨List.replicate 8 0 ++
      (rootRequest.bytes ++ rootRequest.bytes) ++ List.replicate 988 0, 8, 44⟩ =
      .ok ([.send (response pong rootRequest.parsed).bytes], {}, ⟨List.replicate 8 0 ++
        (rootRequest.bytes ++ rootRequest.bytes) ++ List.replicate 988 0, 26, 44⟩) := by
    decide +kernel
  refine ⟨_, _, _, rfl, read, message, by decide, ?_⟩
  rintro ⟨c, calls, ctx, b', read', _, message', answered, _⟩
  cases read.symm.trans read'
  cases message.symm.trans message'
  exact absurd answered.2 (by decide)

end HttpServer
end Yamq
