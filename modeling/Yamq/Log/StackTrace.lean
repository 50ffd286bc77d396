import Yamq.Log.SymbolParser
import Yamq.Decimal

/-! `stacktrace_write`: the lines of the frames, one call of `snprintf` each, and how the position, the
remaining size and the total move along. What `backtrace` and `backtrace_symbols` return is given, and
`__cxa_demangle` is a parameter. -/
namespace Yamq.Stacktrace

structure Options where
  skipStartFrames : UInt16 := 0
  skipEndFrames : UInt16 := 0
  maxFrames : UInt16 := 0
deriving DecidableEq, Repr

/-- An element of `symbols`, and of `stacks`. -/
structure Frame where
  symbol : Option Bytes
  stack : UInt64
deriving DecidableEq, Repr

/-- A call of `snprintf`: where in the original buffer, with which size, and the text in full. -/
structure Print where
  position : Nat
  size : UInt64
  text : Bytes
deriving DecidableEq, Repr

/-- The variables of `stacktrace_write`, with `buf` as a distance from the original one. -/
structure Writer where
  s : SymbolGroup
  ret : UInt64 := 0
  buf : Nat := 0
  bufsz : UInt64
  prints : List Print := []
deriving DecidableEq, Repr

/-- The bytes that `%s` and `__cxa_demangle` see. -/
def cStr (str : Bytes) : Bytes := str.takeWhile (· ≠ 0)

/-- `func_name` behind the three branches for C++, module and C names. -/
def displayName (demangle : Bytes → Option Bytes) (funcName : Bytes) : Bytes :=
  match funcName with
  | [] => []
  | c :: rest =>
    if c = 95 then
      if rest.head?.getD 0 = 95 then funcName else (demangle (cStr funcName)).getD funcName
    else funcName ++ ascii "()"

/-- `"#%d: %s %s%s\r\n"`. -/
def lineText (frameId : Nat) (funcAddress funcName funcOffset : Bytes) : Bytes :=
  ascii "#" ++ ascii (toString frameId) ++ ascii ": " ++ cStr funcAddress ++ ascii " " ++
    cStr funcName ++ cStr funcOffset ++ [CR, LF]

/-- The length that `snprintf` would have written, or -1 where an `int` does not hold it. -/
def snprintf (text : Bytes) : Int := if text.length < 2147483648 then text.length else -1

/-- The loop's body up to `snprintf`. Without a text the loop ends. -/
def frameLine (demangle : Bytes → Option Bytes) (s : SymbolGroup) (frameId : Nat) (frame : Frame) :
    Except Fault (Option Bytes × SymbolGroup) :=
  match frame.symbol with
  | none => .ok (none, s)
  | some symbol =>
    if frame.stack = 0 ∨ frame.stack = 1 then .ok (none, s)
    else do
      match ← s.frame symbol with
      | (none, s) => return (none, s)
      | (some info, s) =>
        return (some (lineText frameId info.funcAddress (displayName demangle info.funcName)
          info.funcOffset), s)

def Writer.print (w : Writer) (s : SymbolGroup) (text : Bytes) : Writer :=
  { w with s := s, prints := w.prints ++ [⟨w.buf, w.bufsz, text⟩] }

def Writer.advance (w : Writer) (res : Nat) : Writer :=
  { w with
    ret := w.ret + UInt64.ofNat res
    buf := w.buf + res
    bufsz := w.bufsz - UInt64.ofNat res }

/-- The loop, from the frame with the number `frameId` on. -/
def writeFrames (demangle : Bytes → Option Bytes) (maxFrames : UInt16) :
    Nat → List Frame → Writer → Writer × Option Fault
  | _, [], w => (w, none)
  | frameId, frame :: frames, w =>
    if maxFrames ≠ 0 ∧ maxFrames.toNat ≤ frameId then (w, none)
    else
      match frameLine demangle w.s frameId frame with
      | .error f => (w, some f)
      | .ok (none, s) => ({ w with s := s }, none)
      | .ok (some text, s) =>
        let res := snprintf text
        let w := w.print s text
        if res ≤ 0 then (w, none)
        else writeFrames demangle maxFrames (frameId + 1) frames (w.advance res.toNat)

/-- The frames that the loop goes through. -/
def Options.window (options : Options) (frames : List Frame) : List Frame :=
  let skipFrames := options.skipStartFrames.toNat
  let framesCount :=
    if frames.length ≤ skipFrames + options.skipEndFrames.toNat then 0
    else frames.length - options.skipEndFrames.toNat
  (frames.take framesCount).drop skipFrames

/-- `stacktrace_write` for a buffer that is not NULL. The record `s` has no initial value. -/
def stacktraceWrite (demangle : Bytes → Option Bytes) (frames : List Frame) (s : SymbolGroup)
    (bufsz : UInt64) (options : Option Options) : Writer × Option Fault :=
  let options := options.getD {}
  if bufsz = 0 then ({ s := s, bufsz := bufsz }, none)
  else writeFrames demangle options.maxFrames 0 (options.window frames) { s := s, bufsz := bufsz }

/-- Each position and size lies within the original buffer, each size has room for what is taken from it,
and the total is no more than the buffer. -/
structure Stays (bufsz : UInt64) (w : Writer) : Prop where
  inside : ∀ p ∈ w.prints, p.position + p.size.toNat ≤ bufsz.toNat
  unwrapped : ∀ p ∈ w.prints, snprintf p.text ≤ p.size.toNat
  total : w.ret.toNat ≤ bufsz.toNat

/-! What the trace says, whatever buffer there is. -/

/-- The lines in full. -/
def lines (demangle : Bytes → Option Bytes) (maxFrames : UInt16) :
    Nat → List Frame → SymbolGroup → List Bytes
  | _, [], _ => []
  | frameId, frame :: frames, s =>
    if maxFrames ≠ 0 ∧ maxFrames.toNat ≤ frameId then []
    else
      match frameLine demangle s frameId frame with
      | .ok (some text, s) =>
        if text.length < 2147483648 then text :: lines demangle maxFrames (frameId + 1) frames s else []
      | _ => []

/-- The text of the whole trace. -/
def traceText (demangle : Bytes → Option Bytes) (frames : List Frame) (s : SymbolGroup)
    (options : Option Options) : Bytes :=
  (lines demangle (options.getD {}).maxFrames 0 ((options.getD {}).window frames) s).flatten

variable {demangle : Bytes → Option Bytes} {maxFrames : UInt16} {bufsz : UInt64} {w : Writer}

theorem lineText_pos (frameId : Nat) (a b c : Bytes) : 0 < (lineText frameId a b c).length := by
  simp only [lineText, List.length_append, List.length_cons]
  omega

/-- The loop stands where the lines so far end. -/
structure Along (bufsz : UInt64) (w : Writer) : Prop where
  stays : Stays bufsz w
  cursor : w.buf + w.bufsz.toNat = bufsz.toNat
  counted : w.ret.toNat = w.buf

theorem prints_kept (frameId : Nat) (frames : List Frame) (w : Writer) :
    ∀ p ∈ w.prints, p ∈ (writeFrames demangle maxFrames frameId frames w).1.prints := by
  induction frames generalizing frameId w with
  | nil => exact fun p member => member
  | cons frame frames ih =>
    intro p member
    unfold writeFrames
    split
    · exact member
    · split
      · exact member
      · exact member
      · dsimp only
        split
        · exact List.mem_append_left _ member
        · exact ih _ _ p (List.mem_append_left _ member)

/-- The text of a line is never empty. -/
theorem frameLine_pos {s t : SymbolGroup} {frameId : Nat} {frame : Frame} {text : Bytes}
    (run : frameLine demangle s frameId frame = .ok (some text, t)) : 0 < text.length := by
  unfold frameLine at run
  split at run
  · cases run
  · split at run
    · cases run
    · obtain ⟨⟨info, u⟩, -, run⟩ := bind_eq_ok.mp run
      cases info with
      | none => cases run
      | some info =>
        cases run
        exact lineText_pos ..

theorem Along.print (h : Along bufsz w) (s : SymbolGroup) (text : Bytes)
    (fits : snprintf text ≤ w.bufsz.toNat) : Along bufsz (w.print s text) where
  stays :=
    { inside := by
        intro p member
        rcases List.mem_append.mp member with old | new
        · exact h.stays.inside p old
        · rw [List.mem_singleton.mp new]
          exact Nat.le_of_eq h.cursor
      unwrapped := by
        intro p member
        rcases List.mem_append.mp member with old | new
        · exact h.stays.unwrapped p old
        · rw [List.mem_singleton.mp new]
          exact fits
      total := h.stays.total }
  cursor := h.cursor
  counted := h.counted

theorem Along.advance (h : Along bufsz w) {res : Nat} (fits : res ≤ w.bufsz.toNat) :
    Along bufsz (w.advance res) ∧ (w.advance res).bufsz.toNat = w.bufsz.toNat - res := by
  have whole := bufsz.toNat_lt
  have cursor := h.cursor
  have counted := h.counted
  have literal : (UInt64.ofNat res).toNat = res := UInt64.toNat_ofNat_of_lt' (show res < 2 ^ 64 by omega)
  have size : (w.bufsz - UInt64.ofNat res).toNat = w.bufsz.toNat - res := by
    rw [UInt64.toNat_sub_of_le _ _ (UInt64.le_iff_toNat_le.mpr (by omega)), literal]
  have total : (w.ret + UInt64.ofNat res).toNat = w.ret.toNat + res := by
    rw [UInt64.toNat_add, literal, Nat.mod_eq_of_lt (by omega)]
  refine ⟨⟨⟨h.stays.inside, h.stays.unwrapped, ?_⟩, ?_, ?_⟩, size⟩
  · rw [Writer.advance, total]
    omega
  · have sum : w.buf + res + (w.bufsz.toNat - res) = bufsz.toNat := by omega
    rw [Writer.advance, size]
    exact sum
  · rw [Writer.advance, total, counted]

theorem snprintf_small {text : Bytes} (small : text.length < 2147483648) :
    snprintf text = text.length := if_pos small

theorem snprintf_large {text : Bytes} (large : ¬ text.length < 2147483648) : snprintf text = -1 :=
  if_neg large

theorem first_print {frameId : Nat} {frame : Frame} {text : Bytes} {s : SymbolGroup}
    (goes : ¬ (maxFrames ≠ 0 ∧ maxFrames.toNat ≤ frameId))
    (run : frameLine demangle w.s frameId frame = .ok (some text, s)) (frames : List Frame) :
    ⟨w.buf, w.bufsz, text⟩ ∈ (writeFrames demangle maxFrames frameId (frame :: frames) w).1.prints := by
  have new : ⟨w.buf, w.bufsz, text⟩ ∈ (w.print s text).prints :=
    List.mem_append_right _ (List.mem_singleton.mpr rfl)
  rw [writeFrames, if_neg goes, run]
  dsimp only
  split
  · exact new
  · exact prints_kept _ _ _ _ new

theorem writeFrames_stays (frameId : Nat) (frames : List Frame) (h : Along bufsz w) :
    Stays bufsz (writeFrames demangle maxFrames frameId frames w).1 ↔
      (lines demangle maxFrames frameId frames w.s).flatten.length ≤ w.bufsz.toNat := by
  induction frames generalizing frameId w with
  | nil => exact iff_of_true h.stays (Nat.zero_le _)
  | cons frame frames ih =>
    by_cases stop : maxFrames ≠ 0 ∧ maxFrames.toNat ≤ frameId
    · rw [writeFrames, lines, if_pos stop, if_pos stop]
      exact iff_of_true h.stays (Nat.zero_le _)
    · cases run : frameLine demangle w.s frameId frame with
      | error f =>
        rw [writeFrames, lines, if_neg stop, if_neg stop, run]
        exact iff_of_true h.stays (Nat.zero_le _)
      | ok result =>
        obtain ⟨text, s⟩ := result
        cases text with
        | none =>
          rw [writeFrames, lines, if_neg stop, if_neg stop, run]
          exact iff_of_true ⟨h.stays.inside, h.stays.unwrapped, h.stays.total⟩ (Nat.zero_le _)
        | some text =>
          have some_ := frameLine_pos run
          have wrote := first_print stop run frames
          rw [writeFrames, if_neg stop, run] at wrote
          rw [writeFrames, lines, if_neg stop, if_neg stop, run]
          dsimp only at wrote ⊢
          by_cases small : text.length < 2147483648
          · rw [snprintf_small small, if_neg (by omega), Int.toNat_natCast] at wrote ⊢
            rw [if_pos small, List.flatten_cons, List.length_append]
            by_cases fits : text.length ≤ w.bufsz.toNat
            · have printed := h.print s text (by rw [snprintf_small small]; omega)
              obtain ⟨along, size⟩ := printed.advance fits
              have rest := ih (frameId + 1) along
              rw [size] at rest
              rw [rest]
              have left : (w.print s text).bufsz.toNat = w.bufsz.toNat := rfl
              have same : ((w.print s text).advance text.length).s = s := rfl
              rw [left, same]
              omega
            · -- the subtraction wraps at this line
              refine iff_of_false (fun stays => ?_) (by omega)
              have recorded := stays.unwrapped _ wrote
              rw [snprintf_small small] at recorded
              exact fits (Int.ofNat_le.mp recorded)
          · rw [snprintf_large small, if_pos (by decide), if_neg small]
            refine iff_of_true (h.print s text ?_).stays (Nat.zero_le _)
            rw [snprintf_large small]
            omega

/-- For every list of frames, record and buffer size: `stacktrace_write` stays in its buffer exactly when
the text of the whole trace is no longer than the buffer. -/
theorem stays_iff (demangle : Bytes → Option Bytes) (frames : List Frame) (s : SymbolGroup)
    (bufsz : UInt64) (options : Option Options) (some_ : 0 < bufsz) :
    Stays bufsz (stacktraceWrite demangle frames s bufsz options).1 ↔
      (traceText demangle frames s options).length ≤ bufsz.toNat := by
  have open_ : bufsz ≠ 0 := by
    rintro rfl
    exact absurd some_ (by decide)
  have start : Along bufsz { s := s, bufsz := bufsz } :=
    ⟨⟨fun p member => absurd member List.not_mem_nil, fun p member => absurd member List.not_mem_nil,
      Nat.zero_le _⟩, Nat.zero_add _, rfl⟩
  rw [stacktraceWrite, if_neg open_, traceText]
  exact writeFrames_stays 0 _ start

/-- Three frames, the second with a mangled name, and a return address that ends the trace. Its 39 bytes
stay in a buffer of 39 and not in one of 38. -/
theorem stays_short :
    let demangle : Bytes → Option Bytes := fun _ => some (ascii "f()")
    let frames : List Frame := [⟨some shortSymbol.text, 4096⟩, ⟨some (ascii "a(_Z1fv+1) [c]"), 8192⟩,
      ⟨some shortSymbol.text, 4096⟩, ⟨some shortSymbol.text, 1⟩]
    let s : SymbolGroup := ⟨.swStart, 0, 0, 0, 0, 0, 0, [], 0, 0⟩
    Stays 39 (stacktraceWrite demangle frames s 39 none).1 ∧
      ¬ Stays 38 (stacktraceWrite demangle frames s 38 none).1 := by
  intro demangle frames s
  have length : (traceText demangle frames s none).length = 39 := by decide +kernel
  constructor
  · rw [stays_iff demangle frames s 39 none (by decide), length]
    decide
  · rw [stays_iff demangle frames s 38 none (by decide), length]
    decide

/-! A function with a long name. -/

theorem Ready.frameLine {s : SymbolGroup} (h : Ready s) (f : FrameSymbol) (frameId : Nat) {stack : UInt64}
    (known : stack ≠ 0 ∧ stack ≠ 1) :
    ∃ t, frameLine demangle s frameId ⟨some f.text, stack⟩ =
      .ok (some (lineText frameId f.address (displayName demangle f.func) (43 :: f.offset)), t) := by
  obtain ⟨t, parsed, -⟩ := h.frame f
  refine ⟨t, ?_⟩
  have goes : ¬ (stack = 0 ∨ stack = 1) := not_or.mpr known
  rw [Stacktrace.frameLine]
  dsimp only
  rw [if_neg goes, parsed]
  rfl

theorem cStr_clean {str : Bytes} (clean : 0 ∉ str) : cStr str = str := by
  induction str with
  | nil => rfl
  | cons c str ih =>
    obtain ⟨first, rest⟩ := not_or.mp (mt List.mem_cons.mpr clean)
    have goes : decide (c ≠ 0) = true := decide_eq_true (Ne.symm first)
    rw [cStr, List.takeWhile_cons, goes]
    exact congrArg (c :: ·) (ih rest)

/-- `a(b…b+1) [c]`, with so many `b`. -/
def longSymbol (n : Nat) : FrameSymbol :=
  { shortSymbol with
    func := List.replicate n 98
    funcClean := fun plus => absurd (List.eq_of_mem_replicate plus) (by decide)
    trimmed := by
      have func : Trimmed (List.replicate n (98 : Byte)) := by
        refine trimmed_of_dark fun c member => ?_
        rw [List.eq_of_mem_replicate member]
        rfl
      obtain ⟨file, _, rest⟩ := shortSymbol.trimmed
      exact ⟨file, func, rest⟩ }

theorem longSymbol_line (n : Nat) :
    (lineText 0 (longSymbol (n + 1)).address (displayName demangle (longSymbol (n + 1)).func)
      (43 :: (longSymbol (n + 1)).offset)).length = n + 13 := by
  have name : displayName demangle (longSymbol (n + 1)).func =
      List.replicate (n + 1) 98 ++ ascii "()" := rfl
  have clean : (0 : Byte) ∉ List.replicate (n + 1) (98 : Byte) ++ ascii "()" := by
    simp [ascii]
  have head : (ascii "#" ++ ascii (toString 0) ++ ascii ": " ++ cStr (ascii "c") ++ ascii " ").length =
      6 := by
    decide +kernel
  have tail : (cStr (43 :: ascii "1")).length = 2 := by decide +kernel
  have parens : (ascii "()").length = 2 := by decide +kernel
  rw [name, lineText, cStr_clean clean]
  simp only [longSymbol, shortSymbol]
  rw [List.length_append, List.length_append, List.length_append, head, tail, List.length_append,
    List.length_replicate, parens, List.length_cons, List.length_singleton]
  omega

theorem longSymbol_print (demangle : Bytes → Option Bytes) (n : Nat) (bufsz : UInt64)
    (some_ : bufsz ≠ 0) (s : SymbolGroup) (start : s.state = .swStart) :
    ∃ p ∈ (stacktraceWrite demangle [⟨some (longSymbol (n + 1)).text, 4096⟩] s bufsz none).1.prints,
      p.size = bufsz ∧ p.text.length = n + 13 := by
  obtain ⟨t, run⟩ : ∃ t, frameLine demangle s 0 ⟨some (longSymbol (n + 1)).text, 4096⟩ =
      .ok (some (lineText 0 (longSymbol (n + 1)).address (displayName demangle (longSymbol (n + 1)).func)
        (43 :: (longSymbol (n + 1)).offset)), t) :=
    Ready.frameLine (.inl start) _ 0 (by decide)
  have first : ¬ (({} : Options).maxFrames ≠ 0 ∧ ({} : Options).maxFrames.toNat ≤ 0) := by decide
  rw [stacktraceWrite, if_neg some_]
  exact ⟨_, first_print (w := { s := s, bufsz := bufsz }) first run [], rfl, longSymbol_line n⟩

/-- A frame whose function has a name of 10000 characters, and a buffer as `stacktrace` has it. -/
theorem trace_outgrows :
    ¬ ∀ (demangle : Bytes → Option Bytes) (frames : List Frame) (s : SymbolGroup) (bufsz : UInt64)
      (options : Option Options), 0 < bufsz →
        Stays bufsz (stacktraceWrite demangle frames s bufsz options).1 := by
  intro all
  obtain ⟨p, wrote, size, length⟩ := longSymbol_print (fun _ => none) 9999 10000 (by decide)
    ⟨.swStart, 0, 0, 0, 0, 0, 0, [], 0, 0⟩ rfl
  have fits := (all _ _ _ _ _ (by decide)).unwrapped p wrote
  rw [snprintf, length, size] at fits
  exact absurd fits (by decide)

end Yamq.Stacktrace
