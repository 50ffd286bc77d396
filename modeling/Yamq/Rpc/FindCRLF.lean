import Yamq.Rpc.ByteFifo

/-! What `findCRLF` finds against what there is to read, on every buffer that calls lead to. -/
namespace Yamq.IoBuffer

open PairSearch

/-- The buffers that calls with any arguments lead to. `Seek` does not leave the vector. -/
inductive Arises : IoBuffer → Prop where
  | construct (initialSize : UInt64) : Arises (construct initialSize)
  | put {b c : IoBuffer} (data : Bytes) : Arises b → b.put data = .ok c → Arises c
  | get {b c : IoBuffer} {data : Bytes} (size : Nat) : Arises b → b.get size = .ok (data, c) → Arises c
  | seek {b c : IoBuffer} (offset : Int) : Arises b → 0 ≤ b.readerIndex + offset →
      b.seek offset = .ok c → Arises c
  | retrieve {b c : IoBuffer} {n : Nat} (result : ReadResult) : Arises b →
      b.retrieve result = .ok (n, c) → Arises c
  | shrink {b c : IoBuffer} (reserve : Int) : Arises b → b.shrink reserve = .ok c → Arises c
  | swap {b c : IoBuffer} : Arises b → Arises c → Arises (b.swap c).1
  | reset {b : IoBuffer} : Arises b → Arises b.reset

/-- What is left of the layout when the arguments are arbitrary. -/
structure Indexed (b : IoBuffer) : Prop where
  reader : 0 ≤ b.readerIndex
  writer : b.writerIndex < 2147483648

theorem indexed_start (buf : Bytes) : Indexed ⟨buf, kCheapPrepend, kCheapPrepend⟩ :=
  ⟨Int.le_of_lt (by decide : (0 : Int) < kCheapPrepend), (by decide : kCheapPrepend < 2147483648)⟩

theorem Indexed.put {b c : IoBuffer} {data : Bytes} (h : b.Indexed) (run : b.put data = .ok c) :
    c.Indexed := by
  obtain ⟨high, same | same⟩ := put_bounds run
  · exact ⟨by rw [same]; exact h.reader, high⟩
  · exact ⟨by rw [same]; decide, high⟩

theorem Indexed.seek {b c : IoBuffer} {offset : Int} (h : b.Indexed)
    (inside : 0 ≤ b.readerIndex + offset) (run : b.seek offset = .ok c) : c.Indexed := by
  unfold IoBuffer.seek at run
  split at run
  · split at run
    · obtain ⟨r, sum, run⟩ := bind_eq_ok.mp run
      cases run
      obtain ⟨rfl, _⟩ := addInt_eq_ok.mp sum
      exact ⟨inside, h.writer⟩
    · cases run
      exact indexed_start _
  · cases run

theorem Arises.indexed {b : IoBuffer} (arises : Arises b) : b.Indexed := by
  induction arises with
  | construct n => exact indexed_start _
  | put data _ run ih => exact ih.put run
  | seek offset _ inside run ih => exact ih.seek inside run
  | @get b c data size _ run ih =>
    unfold IoBuffer.get at run
    split at run
    · cases run
      exact ih
    · rename_i some_
      obtain ⟨_, _, run⟩ := bind_eq_ok.mp run
      obtain ⟨c, sought, run⟩ := bind_eq_ok.mp run
      cases run
      have reader := ih.reader
      have writer := ih.writer
      have readable : toSize b.readableBytes = b.readableBytes.toNat := by
        rw [toSize_small] <;> simp only [readableBytes] at some_ ⊢ <;> omega
      refine ih.seek ?_ sought
      have short : (if size < toSize b.readableBytes then size else toSize b.readableBytes) ≤
          b.readableBytes.toNat := by
        rw [readable]
        split <;> omega
      have narrow : b.readableBytes < 2147483648 := by simp only [readableBytes]; omega
      rw [toInt_small] <;> omega
  | @retrieve b c n result _ run ih =>
    cases result with
    | error => cases run
    | bytes data =>
      simp only [IoBuffer.retrieve, bind_eq_ok] at run
      obtain ⟨buf, _, run⟩ := run
      have moved {k : Int} {d : IoBuffer} (run : { b with buf := buf }.wseek k = .ok d) : d.Indexed := by
        obtain ⟨_, _, high, rfl⟩ := wseek_eq_ok.mp run
        exact ⟨ih.reader, high⟩
      split at run
      · obtain ⟨d, run, last⟩ := bind_eq_ok.mp run
        cases last
        exact moved run
      · simp only [bind_eq_ok] at run
        obtain ⟨d, first, e, second, last⟩ := run
        cases last
        exact (moved first).put second
  | @shrink b c reserve _ run ih =>
    simp only [IoBuffer.shrink, bind_eq_ok] at run
    obtain ⟨total, _, fresh, spaced, data, _, run⟩ := run
    obtain ⟨high, same⟩ := put_bounds run
    have start : fresh.readerIndex = kCheapPrepend := (ensureSpace_reader spaced).elim id id
    have reader : c.readerIndex = kCheapPrepend := same.elim (fun same => same.trans start) id
    exact ⟨by rw [reader]; decide, high⟩
  | swap _ _ _ ih => exact ih
  | reset _ _ => exact indexed_start _

/-- The position of the first CR LF that lies whole among the readable bytes. -/
def FirstLineEnd (b : IoBuffer) (p : Int) : Prop :=
  ∃ i : Nat, p = b.readerIndex + i ∧ PairAt CR LF b.contents i ∧ ∀ j < i, ¬ PairAt CR LF b.contents j

/-- `findCRLF` returns that position, or NULL when there is none. -/
def FindsReadable (b : IoBuffer) : Prop :=
  ∃ found, b.findCRLF = .ok found ∧ (∀ p, found = some p ↔ b.FirstLineEnd p) ∧
    (found = none ↔ NoPair CR LF b.contents)

/-- The readable bytes are the front of what `findCRLF` scans. -/
theorem contents_window {b : IoBuffer} (reader : 0 ≤ b.readerIndex) :
    b.contents = b.window.take b.readableBytes.toNat := by
  rw [contents, window, List.take_take]
  congr 1
  simp only [readableBytes]
  omega

/-- For every buffer that calls with any arguments lead to, whatever it holds behind the writer:
`findCRLF` answers for the readable bytes exactly when they hold a CR LF, or what it scans lies in the
vector and holds none. -/
theorem finds_readable_iff {b : IoBuffer} (arises : Arises b) :
    b.FindsReadable ↔ ¬ NoPair CR LF b.contents ∨ b.Unambiguous := by
  have reader := arises.indexed.reader
  cases first : findPair CR LF b.contents with
  | none =>
    have clean := (findPair_none ..).mp first
    rw [or_iff_right (not_not.mpr clean), ← findCRLF_none]
    constructor
    · rintro ⟨found, run, _, none⟩
      rw [run, none.mpr clean]
    · intro run
      refine ⟨none, run, fun p => iff_of_false (Option.some_ne_none p ·.symm) ?_,
        iff_of_true rfl clean⟩
      rintro ⟨i, _, here, _⟩
      exact clean i here
  | some i =>
    obtain ⟨here, before⟩ := (findPair_some ..).mp first
    have line : ¬ NoPair CR LF b.contents := fun clean => clean i here
    have bound := pairAt_bound here
    have front := contents_window reader
    have scanned (j : Nat) (inside : j ≤ i) : PairAt CR LF b.window j ↔ PairAt CR LF b.contents j := by
      rw [← pairAt_append_left (show j + 1 < b.contents.length by omega)
        (b.window.drop b.readableBytes.toNat), front, List.take_append_drop]
    have hit : findPair CR LF b.window = some i :=
      (findPair_some ..).mpr ⟨(scanned i (Nat.le_refl i)).mpr here, fun j earlier at_j =>
        before j earlier ((scanned j (Nat.le_of_lt earlier)).mp at_j)⟩
    have run : b.findCRLF = .ok (some (b.readerIndex + i)) := by
      rw [findCRLF, hit]
    refine iff_of_true ⟨_, run, fun p => ?_, iff_of_false (Option.some_ne_none _) line⟩ (.inl line)
    constructor
    · intro same
      cases same
      exact ⟨i, rfl, here, before⟩
    · rintro ⟨k, rfl, there, least⟩
      have same : k = i := Nat.le_antisymm (Nat.le_of_not_lt fun less => least i less here)
        (Nat.le_of_not_lt fun less => before k less there)
      rw [same]

/-- Eight bytes of room that hold `ab` and a line end. -/
def abLine (writer : Int) : IoBuffer :=
  ⟨List.replicate 8 0 ++ [97, 98, 13, 10, 0, 0, 0, 0], kCheapPrepend, writer⟩

theorem abLine_arises : Arises (abLine 12) :=
  .put [97, 98, 13, 10] (.construct 8) (by decide +kernel)

theorem finds_abLine : (abLine 12).FindsReadable :=
  (finds_readable_iff abLine_arises).mpr (.inl fun clean => clean 2 (by decide))

/-- Once the line has been read out the buffer is empty, and `findCRLF` still reports its end; a
vector without room behind the writer is read past its end. -/
theorem findCRLF_read_out :
    (Arises (abLine 8) ∧ (abLine 8).contents = [] ∧ (abLine 8).findCRLF = .ok (some 10) ∧
      ¬ (abLine 8).FindsReadable) ∧
    ∃ b, Arises b ∧ b.findCRLF = .error .outOfBounds ∧ ¬ b.FindsReadable := by
  have found : (abLine 8).findCRLF = .ok (some 10) := by decide
  have full : Arises ⟨List.replicate 8 0 ++ [97], 8, 9⟩ := .put [97] (.construct 0) (by decide +kernel)
  refine ⟨⟨.seek 4 abLine_arises (by decide) (by decide), by decide, found, ?_⟩, _, full, by decide, ?_⟩
  · rintro ⟨p, run, _, none⟩
    cases found.symm.trans run
    cases none.mpr ((findPair_none ..).mp (by decide))
  · rintro ⟨p, run, _⟩
    cases run

end Yamq.IoBuffer
