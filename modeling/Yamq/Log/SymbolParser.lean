import Yamq.Machine

/-! `log/debug/stacktrace.cpp`: the state machine that takes the symbol of a frame apart, and the record
that `stacktrace_write` passes to it for one frame after the other. -/
namespace Yamq.Stacktrace

/-- `State`, and the values of an `int` that no enumerator has. -/
inductive ParseState where
  | swStart | swFile | swFunc | swOffset | swAddr | swDone
  | other (value : Int)
deriving DecidableEq, Repr

inductive Rc where
  | ok | again
deriving DecidableEq, Repr

/-- `stacktrace_symbol_group_t`. A C string is given by its bytes before the NUL. -/
structure SymbolGroup where
  state : ParseState
  fileStart : Nat
  fileEnd : Nat
  funcEnd : Nat
  offsetEnd : Nat
  addrStart : Nat
  addrEnd : Nat
  symbolStr : Bytes
  pos : Nat
  last : Nat
deriving DecidableEq, Repr

def isSpaceChar (c : Byte) : Bool := c = 32 || c = CR || c = 9 || c = LF

/-- The `switch`. Without a next state it jumps to `done`. -/
def parseChar (s : SymbolGroup) (state : ParseState) (pi : Nat) (ch : Byte) :
    SymbolGroup × Option ParseState :=
  match state with
  | .swStart => ({ s with fileStart := pi }, some .swFile)
  | .swFile => if ch = 40 then ({ s with fileEnd := pi }, some .swFunc) else (s, some .swFile)
  | .swFunc => if ch = 43 then ({ s with funcEnd := pi }, some .swOffset) else (s, some .swFunc)
  | .swOffset => if ch = 41 then ({ s with offsetEnd := pi }, some .swAddr) else (s, some .swOffset)
  | .swAddr =>
    let s := if ch = 91 then { s with addrStart := pi + 1 } else s
    if ch = 93 then ({ s with addrEnd := pi }, none) else (s, some .swAddr)
  | .swDone => (s, none)
  | .other value => (s, some (.other value))

/-- The loop of `stacktrace_parse_symbol_info`, which keeps `pos` and `state` only at the end of the
string. -/
def parseLoop : Bytes → Nat → SymbolGroup → ParseState → Rc × SymbolGroup
  | [], pi, s, state => (.again, { s with pos := pi, state := state })
  | ch :: rest, pi, s, state =>
    if isSpaceChar ch then parseLoop rest (pi + 1) s state
    else
      match parseChar s state pi ch with
      | (s, some state) => parseLoop rest (pi + 1) s state
      | (s, none) => (.ok, s)

def parseSymbolInfo (s : SymbolGroup) : Rc × SymbolGroup :=
  parseLoop ((s.symbolStr.take s.last).drop s.pos) s.pos s s.state

/-- `std::string(base + first, base + last)`, where the NUL of `base` is the last byte there is. -/
def slice (base : Bytes) (first last : Nat) : Except Fault Bytes :=
  if first ≤ last ∧ last ≤ base.length + 1 then .ok (((base ++ [0]).take last).drop first)
  else .error .outOfBounds

structure FrameInfo where
  fileName : Bytes
  funcName : Bytes
  funcOffset : Bytes
  funcAddress : Bytes
deriving DecidableEq, Repr

/-- What `stacktrace_write` takes from the record. -/
def SymbolGroup.info (s : SymbolGroup) : Except Fault FrameInfo := do
  let funcName ← slice s.symbolStr (s.fileEnd + 1) s.funcEnd
  let funcOffset ← slice s.symbolStr s.funcEnd s.offsetEnd
  let funcAddress ← slice s.symbolStr s.addrStart s.addrEnd
  let fileName ← slice s.symbolStr s.fileStart s.fileEnd
  return { fileName, funcName, funcOffset, funcAddress }

def SymbolGroup.on (s : SymbolGroup) (symbol : Bytes) : SymbolGroup :=
  { s with symbolStr := symbol, pos := 0, last := symbol.length }

/-- The first part of the loop of `stacktrace_write`. Without an answer `OK` there is no frame. -/
def SymbolGroup.frame (s : SymbolGroup) (symbol : Bytes) :
    Except Fault (Option FrameInfo × SymbolGroup) :=
  match parseSymbolInfo (s.on symbol) with
  | (.again, s) => .ok (none, s)
  | (.ok, s) => do return (some (← s.info), s)

/-- The frames of the symbols, up to the first that is not parsed. -/
def SymbolGroup.extract (s : SymbolGroup) : List Bytes → Except Fault (List FrameInfo)
  | [] => .ok []
  | symbol :: symbols => do
    match ← s.frame symbol with
    | (none, _) => return []
    | (some info, s) => return info :: (← s.extract symbols)

/-! Symbols as `backtrace_symbols` writes them. -/

def Trimmed (text : Bytes) : Prop :=
  (∀ c, text.head? = some c → isSpaceChar c = false) ∧
    ∀ c, text.getLast? = some c → isSpaceChar c = false

/-- `file(func+offset) [address]`. -/
structure FrameSymbol where
  file : Bytes
  func : Bytes
  offset : Bytes
  address : Bytes
  fileSome : file ≠ []
  fileClean : 40 ∉ file
  funcClean : 43 ∉ func
  offsetClean : 41 ∉ offset
  addressClean : 91 ∉ address ∧ 93 ∉ address
  trimmed : Trimmed file ∧ Trimmed func ∧ Trimmed offset ∧ Trimmed address

namespace FrameSymbol

def text (f : FrameSymbol) : Bytes :=
  f.file ++ 40 :: (f.func ++ 43 :: (f.offset ++ 41 :: 32 :: 91 :: (f.address ++ [93])))

def info (f : FrameSymbol) : FrameInfo := ⟨f.file, f.func, 43 :: f.offset, f.address⟩

end FrameSymbol

variable {s : SymbolGroup} {state : ParseState} {f : FrameSymbol}

/-- Characters that the state passes over. -/
theorem parseLoop_skip (part rest : Bytes) (pi : Nat)
    (quiet : ∀ c ∈ part, ∀ pi, parseChar s state pi c = (s, some state)) :
    parseLoop (part ++ rest) pi s state = parseLoop rest (pi + part.length) s state := by
  induction part generalizing pi with
  | nil => rfl
  | cons c part ih =>
    have next := ih (pi + 1) fun c member => quiet c (List.mem_cons_of_mem _ member)
    have width : pi + 1 + part.length = pi + (c :: part).length := by
      rw [List.length_cons]
      omega
    rw [List.cons_append, parseLoop, quiet c List.mem_cons_self pi, ← width, ← next]
    exact ite_self _

/-- A part of the symbol and the character that ends it. -/
theorem parseLoop_part {part : Bytes} {d : Byte} {t : Nat → SymbolGroup} {state' : ParseState}
    (clean : d ∉ part) (dark : isSpaceChar d = false)
    (step : ∀ c pi, parseChar s state pi c = if c = d then (t pi, some state') else (s, some state))
    (rest : Bytes) (pi : Nat) :
    parseLoop (part ++ d :: rest) pi s state =
      parseLoop rest (pi + part.length + 1) (t (pi + part.length)) state' := by
  have quiet : ∀ c ∈ part, ∀ pi, parseChar s state pi c = (s, some state) := by
    intro c member pi
    have other : c ≠ d := fun same => clean (same ▸ member)
    rw [step, if_neg other]
  rw [parseLoop_skip part _ pi quiet, parseLoop, dark, step, if_pos rfl]
  rfl

theorem parse_address {address : Bytes} (clean : 91 ∉ address ∧ 93 ∉ address) (s : SymbolGroup)
    (pi : Nat) :
    parseLoop (32 :: 91 :: (address ++ [93])) pi s .swAddr =
      (.ok, { s with addrStart := pi + 1 + 1, addrEnd := pi + 1 + 1 + address.length }) := by
  have opens : parseLoop (32 :: 91 :: (address ++ [93])) pi s .swAddr =
      parseLoop (address ++ [93]) (pi + 1 + 1) { s with addrStart := pi + 1 + 1 } .swAddr := rfl
  rw [opens, parseLoop_skip]
  · rfl
  · intro c member pi
    have opening : c ≠ 91 := fun same => clean.1 (same ▸ member)
    have closing : c ≠ 93 := fun same => clean.2 (same ▸ member)
    simp only [parseChar, if_neg opening, if_neg closing]

/-- Where the parts of a symbol begin and end. -/
def located (s : SymbolGroup) (f : FrameSymbol) : SymbolGroup :=
  let fileEnd := f.file.length
  let funcEnd := fileEnd + 1 + f.func.length
  let offsetEnd := funcEnd + 1 + f.offset.length
  let addrStart := offsetEnd + 1 + 1 + 1
  { s with fileEnd, funcEnd, offsetEnd, addrStart, addrEnd := addrStart + f.address.length }

theorem parse_file (f : FrameSymbol) (s : SymbolGroup) :
    parseLoop f.text 0 s .swFile = (.ok, located s f) := by
  rw [FrameSymbol.text, parseLoop_part f.fileClean (by decide) fun _ _ => rfl,
    parseLoop_part f.funcClean (by decide) fun _ _ => rfl,
    parseLoop_part f.offsetClean (by decide) fun _ _ => rfl, parse_address f.addressClean, Nat.zero_add]
  rfl

/-- The first character of the file is the first of the symbol. -/
theorem parse_start (f : FrameSymbol) (s : SymbolGroup) :
    parseLoop f.text 0 s .swStart = (.ok, located { s with fileStart := 0 } f) := by
  rw [← parse_file]
  obtain ⟨c, file, first⟩ := List.exists_cons_of_ne_nil f.fileSome
  have dark : isSpaceChar c = false := f.trimmed.1.1 c (by rw [first]; rfl)
  have other : c ≠ 40 := fun same => f.fileClean (by rw [first, same]; exact List.mem_cons_self)
  rw [FrameSymbol.text, first, List.cons_append, parseLoop, parseLoop, dark]
  simp only [parseChar, if_neg other]
  rfl

theorem slice_part {base : Bytes} {first last : Nat} (front part back : Bytes)
    (whole : base = front ++ (part ++ back)) (starts : first = front.length)
    (ends : last = first + part.length) : slice base first last = .ok part := by
  subst whole starts ends
  have inside : front.length ≤ front.length + part.length ∧
      front.length + part.length ≤ (front ++ (part ++ back)).length + 1 := by
    simp only [List.length_append]
    omega
  rw [slice, if_pos inside, List.drop_take, Nat.add_sub_cancel_left, List.append_assoc,
    List.drop_left, List.append_assoc, List.take_left]

theorem slice_length {base : Bytes} {first last : Nat} {part : Bytes}
    (run : slice base first last = .ok part) : part.length = last - first := by
  unfold slice at run
  split at run
  · rename_i inside
    cases run
    simp only [List.length_drop, List.length_take, List.length_append, List.length_singleton]
    omega
  · cases run

theorem located_info (f : FrameSymbol) (start : s.fileStart = 0) (here : s.symbolStr = f.text) :
    (located s f).info = .ok f.info := by
  have func : slice f.text (f.file.length + 1) (f.file.length + 1 + f.func.length) = .ok f.func :=
    slice_part (f.file ++ [40]) f.func (43 :: (f.offset ++ 41 :: 32 :: 91 :: (f.address ++ [93])))
      (by simp [FrameSymbol.text]) (by simp) rfl
  have offset : slice f.text (f.file.length + 1 + f.func.length)
      (f.file.length + 1 + f.func.length + 1 + f.offset.length) = .ok (43 :: f.offset) :=
    slice_part (f.file ++ 40 :: f.func) (43 :: f.offset) (41 :: 32 :: 91 :: (f.address ++ [93]))
      (by simp [FrameSymbol.text]) (by simp; omega) (by simp; omega)
  have address : slice f.text (f.file.length + 1 + f.func.length + 1 + f.offset.length + 1 + 1 + 1)
      (f.file.length + 1 + f.func.length + 1 + f.offset.length + 1 + 1 + 1 + f.address.length) =
      .ok f.address :=
    slice_part (f.file ++ 40 :: (f.func ++ 43 :: (f.offset ++ [41, 32, 91]))) f.address [93]
      (by simp [FrameSymbol.text]) (by simp; omega) rfl
  have file : slice f.text 0 f.file.length = .ok f.file :=
    slice_part [] f.file _ (by rw [List.nil_append]; rfl) rfl (Nat.zero_add _).symm
  simp only [SymbolGroup.info, located, here, start, func, offset, address, file, ok_bind]
  rfl

/-! What a frame leaves of the record's earlier contents. -/

/-- The record is as at the start of a symbol, or behind a `file` that began with the symbol. -/
def Ready (s : SymbolGroup) : Prop := s.state = .swStart ∨ s.state = .swFile ∧ s.fileStart = 0

theorem parse_on (s : SymbolGroup) (symbol : Bytes) :
    parseSymbolInfo (s.on symbol) = parseLoop symbol 0 (s.on symbol) s.state := by
  rw [parseSymbolInfo, SymbolGroup.on, List.take_length, List.drop_zero]

theorem Ready.parse (h : Ready s) (f : FrameSymbol) :
    parseSymbolInfo (s.on f.text) = (.ok, located { s.on f.text with fileStart := 0 } f) := by
  rw [parse_on]
  rcases h with start | ⟨file, first⟩
  · rw [start]
    exact parse_start f _
  · have same : { s.on f.text with fileStart := 0 } = s.on f.text := by
      rw [← first]
      rfl
    rw [file, same]
    exact parse_file f _

theorem Ready.frame (h : Ready s) (f : FrameSymbol) :
    ∃ t, s.frame f.text = .ok (some f.info, t) ∧ Ready t := by
  refine ⟨located { s.on f.text with fileStart := 0 } f, ?_, ?_⟩
  · rw [SymbolGroup.frame, h.parse]
    dsimp only
    rw [located_info f rfl rfl]
    rfl
  · rcases h with start | ⟨file, first⟩
    · exact .inl start
    · exact .inr ⟨file, rfl⟩

theorem Ready.extract (h : Ready s) (symbols : List FrameSymbol) :
    s.extract (symbols.map FrameSymbol.text) = .ok (symbols.map FrameSymbol.info) := by
  induction symbols generalizing s with
  | nil => rfl
  | cons f symbols ih =>
    obtain ⟨t, parsed, ready⟩ := h.frame f
    rw [List.map_cons, List.map_cons, SymbolGroup.extract, parsed, ok_bind]
    dsimp only
    rw [ih ready]
    rfl

/-- The states behind the file, which leave where it begins and ends. -/
def ParseState.PastFile (state : ParseState) : Prop := state ≠ .swStart ∧ state ≠ .swFile

theorem parseChar_past (past : state.PastFile) (s : SymbolGroup) (pi : Nat) (c : Byte) :
    (parseChar s state pi c).1.fileStart = s.fileStart ∧ (parseChar s state pi c).1.fileEnd = s.fileEnd ∧
      ∀ state', (parseChar s state pi c).2 = some state' → state'.PastFile := by
  unfold parseChar
  cases state with
  | swStart => exact absurd rfl past.1
  | swFile => exact absurd rfl past.2
  | swFunc => dsimp only; split <;> simp [ParseState.PastFile]
  | swOffset => dsimp only; split <;> simp [ParseState.PastFile]
  | swAddr => dsimp only; split <;> split <;> simp [ParseState.PastFile]
  | swDone => simp
  | other value => simp [ParseState.PastFile]

theorem parseLoop_past (past : state.PastFile) (text : Bytes) (pi : Nat) :
    (parseLoop text pi s state).2.fileStart = s.fileStart ∧
      (parseLoop text pi s state).2.fileEnd = s.fileEnd := by
  induction text generalizing pi s state with
  | nil => exact ⟨rfl, rfl⟩
  | cons c text ih =>
    unfold parseLoop
    split
    · exact ih past (pi + 1)
    · obtain ⟨start, end_, next⟩ := parseChar_past past s pi c
      split
      · rename_i t state' step
        rw [step] at start end_ next
        obtain ⟨start', end_'⟩ := ih (next state' rfl) (pi + 1)
        exact ⟨start'.trans start, end_'.trans end_⟩
      · rename_i t step
        rw [step] at start end_
        exact ⟨start, end_⟩

theorem info_file_length {info : FrameInfo} (run : s.info = .ok info) :
    info.fileName.length = s.fileEnd - s.fileStart := by
  obtain ⟨func, -, run⟩ := bind_eq_ok.mp run
  obtain ⟨offset, -, run⟩ := bind_eq_ok.mp run
  obtain ⟨address, -, run⟩ := bind_eq_ok.mp run
  obtain ⟨file, found, run⟩ := bind_eq_ok.mp run
  cases run
  exact slice_length found

theorem frame_parsed {symbol : Bytes} {info : FrameInfo} {t : SymbolGroup}
    (run : s.frame symbol = .ok (some info, t)) :
    info.fileName.length = t.fileEnd - t.fileStart ∧
      t = (parseLoop symbol 0 (s.on symbol) s.state).2 := by
  rw [SymbolGroup.frame, parse_on] at run
  split at run
  · cases run
  · rename_i u parsed
    obtain ⟨info', found, same⟩ := bind_eq_ok.mp run
    cases same
    exact ⟨info_file_length found, by rw [parsed]⟩

theorem extract_frame {symbol : Bytes} {symbols : List Bytes} {info : FrameInfo} {infos : List FrameInfo}
    (run : s.extract (symbol :: symbols) = .ok (info :: infos)) :
    ∃ t, s.frame symbol = .ok (some info, t) := by
  obtain ⟨⟨found, t⟩, parsed, rest⟩ := bind_eq_ok.mp run
  cases found with
  | none => cases rest
  | some info' =>
    obtain ⟨infos', -, same⟩ := bind_eq_ok.mp rest
    cases same
    exact ⟨t, parsed⟩

theorem trimmed_of_dark {text : Bytes} (dark : ∀ c ∈ text, isSpaceChar c = false) : Trimmed text :=
  ⟨fun c first => dark c (List.mem_of_mem_head? first), fun c last => dark c (List.mem_of_getLast? last)⟩

/-- `a…a(+) []`. -/
def plainSymbol (n : Nat) : FrameSymbol where
  file := List.replicate (n + 1) 97
  func := []
  offset := []
  address := []
  fileSome := List.cons_ne_nil _ _
  fileClean := by simp
  funcClean := List.not_mem_nil
  offsetClean := List.not_mem_nil
  addressClean := ⟨List.not_mem_nil, List.not_mem_nil⟩
  trimmed := by
    have file : Trimmed (List.replicate (n + 1) (97 : Byte)) := by
      refine trimmed_of_dark fun c member => ?_
      rw [List.eq_of_mem_replicate member]
      rfl
    have none : Trimmed [] := trimmed_of_dark fun c member => absurd member List.not_mem_nil
    exact ⟨file, none, none, none⟩

/-- From a record with these contents every list of symbols is taken apart rightly exactly when the record
is ready for the start of a symbol. -/
theorem independent_iff (s : SymbolGroup) :
    (∀ symbols : List FrameSymbol,
      s.extract (symbols.map FrameSymbol.text) = .ok (symbols.map FrameSymbol.info)) ↔
      s.state = .swStart ∨ s.state = .swFile ∧ s.fileStart = 0 := by
  refine ⟨fun all => ?_, fun ready => Ready.extract ready⟩
  -- a file of each length comes out
  have lengths : ∀ n, ∃ t, n + 1 = t.fileEnd - t.fileStart ∧
      t = (parseLoop (plainSymbol n).text 0 (s.on (plainSymbol n).text) s.state).2 := by
    intro n
    obtain ⟨t, parsed⟩ := extract_frame (all [plainSymbol n])
    obtain ⟨length, same⟩ := frame_parsed parsed
    refine ⟨t, ?_, same⟩
    rw [← length]
    exact List.length_replicate.symm
  by_cases start : s.state = .swStart
  · exact .inl start
  · by_cases file : s.state = .swFile
    · obtain ⟨t, length, same⟩ := lengths 0
      rw [file, parse_file] at same
      have first : t.fileStart = s.fileStart := by rw [same]; rfl
      have end_ : t.fileEnd = 1 := by rw [same]; rfl
      exact .inr ⟨file, by omega⟩
    · have stays : ∀ n, n + 1 = s.fileEnd - s.fileStart := by
        intro n
        obtain ⟨t, length, same⟩ := lengths n
        obtain ⟨first, end_⟩ := parseLoop_past (s := s.on (plainSymbol n).text)
          ⟨start, file⟩ (plainSymbol n).text 0
        rw [← same] at first end_
        rw [length, first, end_]
        rfl
      have := stays 0
      have := stays 1
      omega

/-- `a(b+1) [c]`. -/
def shortSymbol : FrameSymbol where
  file := ascii "a"
  func := ascii "b"
  offset := ascii "1"
  address := ascii "c"
  fileSome := by decide
  fileClean := by decide
  funcClean := by decide
  offsetClean := by decide
  addressClean := by decide
  trimmed := ⟨trimmed_of_dark (by decide +kernel), trimmed_of_dark (by decide +kernel),
    trimmed_of_dark (by decide +kernel), trimmed_of_dark (by decide +kernel)⟩

/-- A record whose `state` held `sw_done`. -/
theorem stale_state :
    ¬ ∀ (s : SymbolGroup) (symbols : List FrameSymbol),
      s.extract (symbols.map FrameSymbol.text) = .ok (symbols.map FrameSymbol.info) := by
  intro all
  have parsed := all ⟨.swDone, 0, 0, 0, 0, 0, 0, [], 0, 0⟩ [shortSymbol]
  have stops : SymbolGroup.extract ⟨.swDone, 0, 0, 0, 0, 0, 0, [], 0, 0⟩
      ([shortSymbol].map FrameSymbol.text) = .error .outOfBounds := by decide +kernel
  rw [stops] at parsed
  cases parsed

end Yamq.Stacktrace
