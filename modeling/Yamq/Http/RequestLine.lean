import Yamq.Http.HttpContext

/-! The lines that `processRequestLine` accepts, and what it reads off them. -/
namespace Yamq

def Version.text : Version → Bytes
  | .kHttp11 => ascii "HTTP/1.1"
  | .kHttp10 => ascii "HTTP/1.0"
  | .kUnknown => []

theorem splitAtByte_append {c : Byte} {front : Bytes} (absent : c ∉ front) (behind : Bytes) :
    splitAtByte c (front ++ c :: behind) = some (front, behind) := by
  have before : ∀ x ∈ front, (x != c) = true := by
    intro x member
    rw [bne_iff_ne]
    rintro rfl
    exact absent member
  have stop : (c != c) = false := bne_self_eq_false c
  rw [splitAtByte, List.dropWhile_append_of_pos before, List.takeWhile_append_of_pos before,
    List.dropWhile_cons_of_neg (by rw [stop]; exact Bool.false_ne_true),
    List.takeWhile_cons_of_neg (by rw [stop]; exact Bool.false_ne_true), List.append_nil]

theorem splitAtByte_eq_some {c : Byte} {l front behind : Bytes} :
    splitAtByte c l = some (front, behind) ↔ l = front ++ c :: behind ∧ c ∉ front := by
  constructor
  · intro cut
    have whole := List.takeWhile_append_dropWhile (p := (· != c)) (l := l)
    have before : c ∉ l.takeWhile (· != c) := by
      intro member
      have differs := List.all_eq_true.mp List.all_takeWhile c member
      rw [bne_self_eq_false] at differs
      exact Bool.false_ne_true differs
    cases rest : l.dropWhile (· != c) with
    | nil => simp [splitAtByte, rest] at cut
    | cons d tail =>
      have stop : d = c := by
        have head := List.head_dropWhile_not (l := l) (· != c)
          (by rw [rest]; exact List.cons_ne_nil d tail)
        simpa only [rest, List.head_cons, bne_eq_false_iff_eq] using head
      simp only [splitAtByte, rest, Option.some.injEq, Prod.mk.injEq] at cut
      obtain ⟨rfl, rfl⟩ := cut
      rw [rest, stop] at whole
      exact ⟨whole.symm, before⟩
  · rintro ⟨rfl, absent⟩
    exact splitAtByte_append absent behind

/-! What the two steps of `processRequestLine` read. -/

theorem HttpRequest.methodOf_methodString {method : Method} (known : method ≠ .kInvalid) :
    methodOf (methodString { method := method }) = method := by
  cases method with
  | kInvalid => exact absurd rfl known
  | kGet => rfl
  | kPost => rfl
  | kHead => rfl
  | kPut => rfl
  | kDelete => rfl

theorem HttpRequest.methodString_methodOf {m : Bytes} (known : methodOf m ≠ .kInvalid) :
    methodString { method := methodOf m } = m := by
  unfold methodOf at known ⊢
  split_ifs at known ⊢ with get post head put delete
  · exact get.symm
  · exact post.symm
  · exact head.symm
  · exact put.symm
  · exact delete.symm
  · exact absurd rfl known

theorem HttpContext.setTarget_eq {r : HttpRequest} (none : r.query = []) (target : Bytes) :
    setTarget r target =
      { r with path := target.takeWhile (· != 63), query := target.dropWhile (· != 63) } := by
  have whole := List.takeWhile_append_dropWhile (p := (· != 63)) (l := target)
  obtain ⟨method, version, path, query, headers⟩ := r
  cases none
  unfold setTarget
  split
  · rename_i plain
    rw [plain, List.append_nil] at whole
    rw [plain, whole]
    rfl
  · rfl

/-- A method, a target and a version, with one space behind each of the first two. -/
structure RequestLine where
  method : Method
  target : Bytes
  version : Version
  known : method ≠ .kInvalid
  unspaced : 32 ∉ target
  numbered : version ≠ .kUnknown

namespace RequestLine

variable (l : RequestLine)

def text : Bytes :=
  HttpRequest.methodString { method := l.method } ++ 32 :: (l.target ++ 32 :: l.version.text)

/-- The target up to its first question mark, and the rest from there on. -/
def request : HttpRequest where
  method := l.method
  version := l.version
  path := l.target.takeWhile (· != 63)
  query := l.target.dropWhile (· != 63)

theorem method_unspaced (method : Method) : 32 ∉ HttpRequest.methodString { method := method } := by
  cases method <;> decide

theorem processRequestLine_text :
    HttpContext.processRequestLine {} l.text = .ok (true, { request := l.request }) := by
  obtain ⟨method, target, version, known, unspaced, numbered⟩ := l
  have first : splitAtByte 32 (text ⟨method, target, version, known, unspaced, numbered⟩) = some _ :=
    splitAtByte_append (method_unspaced method) (target ++ 32 :: version.text)
  have second := splitAtByte_append unspaced version.text
  have named : HttpRequest.setMethod {} (HttpRequest.methodString { method := method }) =
      .ok (true, { method := method }) := by
    rw [HttpRequest.setMethod, if_pos rfl, HttpRequest.methodOf_methodString known]
    rw [bne_iff_ne.mpr known]
  have goes := HttpContext.setTarget_eq (r := { method := method }) rfl target
  simp only [HttpContext.processRequestLine, first, named, ok_bind, if_true, second, goes]
  cases version with
  | kUnknown => exact absurd rfl numbered
  | kHttp10 => rfl
  | kHttp11 => rfl

end RequestLine

/-- The last check: seven fixed bytes and a digit. -/
theorem version_text {version : Bytes} (sized : version.length = 8)
    (named : version.take 7 = ascii "HTTP/1.") {d : Byte} (digit : version[7]? = some d) :
    version = ascii "HTTP/1." ++ [d] := by
  have last : version.drop 7 = [d] := by
    rw [List.drop_eq_getElem_cons (by omega), List.drop_eq_nil_of_le (by omega)]
    rw [List.getElem?_eq_getElem (by omega), Option.some.injEq] at digit
    rw [digit]
  rw [← named, ← last, List.take_append_drop]

namespace HttpContext

theorem processRequestLine_returns (line : Bytes) :
    ∃ ok ctx, processRequestLine {} line = .ok (ok, ctx) := by
  unfold processRequestLine
  split
  · exact ⟨_, _, rfl⟩
  · simp only [HttpRequest.setMethod, if_true, ok_bind, pure_ok]
    split_ifs
    · split
      · exact ⟨_, _, rfl⟩
      · split_ifs <;> exact ⟨_, _, rfl⟩
    · exact ⟨_, _, rfl⟩

theorem processRequestLine_true {line : Bytes} {ctx : HttpContext}
    (run : processRequestLine {} line = .ok (true, ctx)) : ∃ l : RequestLine, l.text = line := by
  unfold processRequestLine at run
  split at run
  · cases run
  · rename_i m rest first
    obtain ⟨rfl, _⟩ := splitAtByte_eq_some.mp first
    simp only [HttpRequest.setMethod, if_true, ok_bind, pure_ok] at run
    split_ifs at run with known
    · split at run
      · cases run
      · rename_i target version second
        obtain ⟨rfl, unspaced⟩ := splitAtByte_eq_some.mp second
        have known := bne_iff_ne.mp known
        have line (v : Version) (numbered : v ≠ .kUnknown) (same : version = v.text) :
            ∃ l : RequestLine, l.text = m ++ 32 :: (target ++ 32 :: version) :=
          ⟨⟨HttpRequest.methodOf m, target, v, known, unspaced, numbered⟩, by
            rw [RequestLine.text, HttpRequest.methodString_methodOf known, same]⟩
        split_ifs at run with named one zero
        · exact line .kHttp11 (by decide) (version_text named.1 named.2 one)
        · exact line .kHttp10 (by decide) (version_text named.1 named.2 zero)
        all_goals cases run
    · cases run

/-- For every line: `processRequestLine` on a fresh context returns true exactly for a request line,
and then the context holds its method, path, query and version and nothing else. -/
theorem processRequestLine_grammar (line : Bytes) :
    ∃ ok ctx, processRequestLine {} line = .ok (ok, ctx) ∧
      (ok = true ↔ ∃ l : RequestLine, l.text = line) ∧
      ∀ l : RequestLine, l.text = line → ctx = { request := l.request } := by
  obtain ⟨ok, ctx, run⟩ := processRequestLine_returns line
  refine ⟨ok, ctx, run, ⟨?_, ?_⟩, ?_⟩
  · rintro rfl
    exact processRequestLine_true run
  · rintro ⟨l, rfl⟩
    cases run.symm.trans l.processRequestLine_text
    rfl
  · rintro l rfl
    cases run.symm.trans l.processRequestLine_text
    rfl

end HttpContext
end Yamq
