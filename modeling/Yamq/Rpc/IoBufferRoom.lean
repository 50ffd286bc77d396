import Yamq.Rpc.IoBuffer

/-! How much a `Put` may add. The indices are `int`s, so a vector cannot usefully grow beyond
their range. -/
namespace Yamq.IoBuffer

/-- The new bytes end below `2 ^ 31`, where they are or after the readable bytes moved down. -/
def PutFits (b : IoBuffer) (n : Nat) : Prop :=
  b.writerIndex + n < 2147483648 ∨ n + 8 ≤ b.buf.length - b.writerIndex + b.readerIndex

instance (b : IoBuffer) (n : Nat) : Decidable (b.PutFits n) := inferInstanceAs (Decidable (_ ∨ _))

/-- A buffer whose vector is indexed by `int`s throughout. -/
structure Small (b : IoBuffer) : Prop extends b.Layout where
  size : b.buf.length < 2147483648

theorem new_small (n : Nat) (short : n + 8 < 2147483648) : (new n).Small :=
  ⟨new_layout n, by simpa [new] using short⟩

theorem Small.eq_parts {b : IoBuffer} (h : b.Small) : ∃ front data back, b = parts front data back ∧
    8 ≤ front.length ∧ front.length + data.length + back.length < 2147483648 ∧
    (data = [] → front.length = 8) := by
  obtain ⟨front, data, back, rfl⟩ := h.toLayout.eq_parts
  have shape := (parts_layout ..).mp h.toLayout
  have size := h.size
  simp only [parts, List.length_append] at size
  exact ⟨front, data, back, rfl, shape.1, by omega, shape.2.2⟩

theorem parts_small {front data back : Bytes} (low : 8 ≤ front.length)
    (high : front.length + data.length + back.length < 2147483648)
    (empty : data = [] → front.length = 8) : (parts front data back).Small :=
  ⟨(parts_layout ..).mpr ⟨low, by omega, empty⟩, by simp only [parts, List.length_append]; omega⟩

theorem put_fits {b : IoBuffer} (h : b.Small) (data : Bytes) (fits : b.PutFits data.length)
    (some_ : data ≠ []) :
    ∃ c, b.put data = .ok c ∧ c.Small ∧ c.contents = b.contents ++ data := by
  obtain ⟨front, old, back, rfl, low, high, empty⟩ := h.eq_parts
  simp only [PutFits, parts, List.length_append] at fits
  have filled : old ++ data ≠ [] := by simp [some_]
  have space : toInt back.length = back.length := toInt_small (by omega) (by omega)
  have short : data.length < 2147483648 := by omega
  have size : toInt data.length = data.length := toInt_small (by omega) (by omega)
  by_cases room : back.length < data.length
  · have tight : (parts front old back).writableBytes < toInt data.length := by
      rw [parts_writable, space, size]; omega
    by_cases narrow : back.length + front.length < data.length + 8
    · have grown := resize_length back data.length
      have make := @makeSpace_grow front old back data.length low (by omega) (by omega) (by omega)
      have write := @write_parts front old (resize back data.length) data (by omega) (by omega)
        (Int.le_of_eq (by rw [grown, size]))
      refine ⟨parts front (old ++ data) ((resize back data.length).drop data.length), ?_,
        parts_small low ?_ (absurd · filled), by simp⟩
      · simp only [put, ensureSpace, if_pos tight, make, ok_bind]
        exact write
      · simp only [List.length_drop, List.length_append, grown]; omega
    · obtain ⟨back', run, enough, offered, total⟩ := @makeSpace_compact front old back data.length
        (by omega) (by omega) (by omega) (by omega)
      have eight : (front.take 8).length = 8 := by rw [List.length_take]; omega
      refine ⟨parts (front.take 8) (old ++ data) (back'.drop data.length), ?_,
        parts_small (Nat.le_of_eq eight.symm) ?_ (absurd · filled), by simp⟩
      · simp only [put, ensureSpace, if_pos tight, run, ok_bind]
        exact write_parts data (by omega) enough offered
      · simp only [List.length_drop, List.length_append]; omega
  · have roomy : ¬ (parts front old back).writableBytes < toInt data.length := by
      rw [parts_writable, space, size]; omega
    refine ⟨parts front (old ++ data) (back.drop data.length), ?_,
      parts_small low ?_ (absurd · filled), by simp⟩
    · simp only [put, ensureSpace, if_neg roomy, ok_bind]
      exact write_parts data (by omega) (by omega) (by omega)
    · simp only [List.length_drop, List.length_append]; omega

/-- `Peek()` and `ReadableBytes()` are the contents. -/
theorem load_contents {b : IoBuffer} (h : b.Layout) :
    load b.buf b.readerIndex (toSize b.readableBytes) = .ok b.contents := by
  obtain ⟨front, data, back, rfl⟩ := h.eq_parts
  have range := ((parts_layout ..).mp h).2.1
  have size : toSize data.length = data.length := by rw [toSize_small] <;> omega
  rw [parts_readable, parts_contents, size]
  exact load_mid front data back

theorem readable_zero {b : IoBuffer} (h : b.Layout) : b.readableBytes = 0 ↔ b.contents = [] := by
  rw [← contents_length h, Int.natCast_eq_zero, List.length_eq_zero_iff]

theorem seek_small {b : IoBuffer} (h : b.Small) {k : Nat} (inside : k ≤ b.contents.length) :
    ∃ c, b.seek (toInt k) = .ok c ∧ c.Small ∧ c.contents = b.contents.drop k := by
  have len := contents_length h.toLayout
  have range := h.range
  have prepend := h.prepend
  simp only [readableBytes, kCheapPrepend] at len prepend
  obtain ⟨c, run, layout, contents, _⟩ := seek_spec h.toLayout inside
  rw [toInt_small (by omega) (by omega)]
  refine ⟨c, run, ⟨layout, ?_⟩, contents⟩
  have same : c.buf = b.buf := by
    unfold seek at run
    split at run
    · split at run
      · obtain ⟨_, _, run⟩ := bind_eq_ok.mp run
        cases run; rfl
      · cases run; rfl
    · cases run
  rw [same]
  exact h.size

/-- A `Put` that does not fit faults or loses bytes. -/
theorem fits_of_put {b c : IoBuffer} (h : b.Small) {data : Bytes} (run : b.put data = .ok c)
    (kept : c.contents = b.contents ++ data) : b.PutFits data.length := by
  obtain ⟨front, old, back, rfl, low, high, _⟩ := h.eq_parts
  obtain ⟨top, reader⟩ := put_bounds run
  have width : c.contents.length ≤ c.readableBytes.toNat := List.length_take_le _ _
  rw [kept, parts_contents, List.length_append] at width
  have space : toInt back.length = back.length := toInt_small (by omega) (by omega)
  simp only [readableBytes, kCheapPrepend] at width reader
  have start : 8 ≤ c.readerIndex := by
    rcases reader with same | eight
    · rw [same]; simp only [parts]; omega
    · omega
  have size : toInt data.length = data.length := toInt_small (by omega) (by omega)
  simp only [PutFits, parts, List.length_append]
  rcases reader with same | eight
  · simp only [parts] at same
    left; omega
  · by_cases wide : data.length + 8 ≤ back.length + front.length
    · right; omega
    -- there was nothing to gain from moving the readable bytes down
    left
    simp only [put, bind_eq_ok] at run
    obtain ⟨d, spaced, buf, _, run⟩ := run
    obtain ⟨_, _, _, rfl⟩ := wseek_eq_ok.mp run
    rw [size] at top
    rcases ensureSpace_cases spaced with ⟨_, rfl⟩ | ⟨_, _, rfl⟩ | ⟨_, roomy, _, _⟩
    · exact top
    · exact top
    · rw [parts_writable, space, size] at roomy
      simp only [parts] at roomy
      omega

/-! `Retrieve` has room for the same numbers of bytes as `Put`. -/

section
variable {front old back data : Bytes}

/-- `readv` may store `w` bytes behind the writer. -/
structure Offers (front old back : Bytes) (w : Nat) : Prop where
  size : toSize (parts front old back).writableBytes = w
  space : (w : Int) ≤ toInt back.length
  inside : w ≤ back.length

theorem offers_all (high : front.length + old.length + back.length < 2147483648) :
    Offers front old back back.length := by
  have space : toInt back.length = back.length := toInt_small (by omega) (by omega)
  refine ⟨?_, Int.le_of_eq space.symm, Nat.le_refl _⟩
  rw [parts_writable, space, toSize_small] <;> omega

theorem retrieve_inside {w : Nat} (h : Offers front old back w)
    (range : front.length + old.length + data.length < 2147483648) (room : data.length ≤ w) :
    (parts front old back).retrieve (.bytes data) =
      .ok (data.length, parts front (old ++ data) (back.drop data.length)) := by
  have space := h.space
  have inside := h.inside
  obtain ⟨buf, stored, sought⟩ := bind_eq_ok.mp
    (@write_parts front old back data range (by omega) (by omega))
  simp only [retrieve, h.size, List.take_of_length_le room, stored, ok_bind, if_pos room, sought,
    pure_ok]

/-- The bytes that do not fit behind the writer are `Put` after the others. -/
theorem retrieve_over {w : Nat} (h : Offers front old back w)
    (range : front.length + old.length + w < 2147483648) (beyond : w < data.length) :
    (parts front old back).retrieve (.bytes data) = do
      let c ← (parts front (old ++ data.take w) (back.drop w)).put (data.drop w)
      return (data.length, c) := by
  have space := h.space
  have inside := h.inside
  have width : (data.take w).length = w := by
    rw [List.length_take]
    omega
  obtain ⟨buf, stored, sought⟩ := bind_eq_ok.mp
    (@write_parts front old back (data.take w) (by omega) (by omega) (by omega))
  rw [width] at sought
  simp only [retrieve, h.size, stored, ok_bind, if_neg (Nat.not_le.mpr beyond), sought]

theorem full_small (low : 8 ≤ front.length)
    (high : front.length + old.length + back.length < 2147483648) (empty : old = [] → front.length = 8)
    (beyond : back.length < data.length) :
    (parts front (old ++ data.take back.length) []).Small := by
  apply parts_small low
  · simp only [List.length_append, List.length_take, List.length_nil]
    omega
  · intro none
    exact empty (List.append_eq_nil_iff.mp none).1

theorem putFits_over (beyond : back.length < data.length) :
    (parts front (old ++ data.take back.length) []).PutFits (data.drop back.length).length ↔
      (parts front old back).PutFits data.length := by
  simp only [PutFits, parts, List.length_append, List.length_drop, List.length_take, List.length_nil]
  omega

end

theorem retrieve_fits {b : IoBuffer} (h : b.Small) (data : Bytes) (fits : b.PutFits data.length)
    (some_ : data ≠ []) : ∃ c, b.retrieve (.bytes data) = .ok (data.length, c) ∧ c.Small ∧
      c.contents = b.contents ++ data := by
  obtain ⟨front, old, back, rfl, low, high, empty⟩ := h.eq_parts
  by_cases room : data.length ≤ back.length
  · refine ⟨_, retrieve_inside (offers_all high) (by omega) room,
      parts_small low ?_ (by simp [some_]), by simp⟩
    simp only [List.length_append, List.length_drop]
    omega
  · have beyond := Nat.not_le.mp room
    have full := full_small low high empty beyond
    have left : data.drop back.length ≠ [] := by
      intro none
      have := congrArg List.length none
      simp at this
      omega
    obtain ⟨c, run, small, contents⟩ := put_fits full _ ((putFits_over beyond).mpr fits) left
    refine ⟨c, ?_, small, ?_⟩
    · rw [retrieve_over (offers_all high) high beyond, List.drop_length, run]
      rfl
    · rw [contents, parts_contents, parts_contents, List.append_assoc, List.take_append_drop]

theorem fits_of_retrieve {b c : IoBuffer} (h : b.Small) {data : Bytes} {n : Nat}
    (run : b.retrieve (.bytes data) = .ok (n, c)) (kept : c.contents = b.contents ++ data) :
    b.PutFits data.length := by
  obtain ⟨front, old, back, rfl, low, high, empty⟩ := h.eq_parts
  by_cases room : data.length ≤ back.length
  · left
    simp only [parts]
    omega
  · have beyond := Nat.not_le.mp room
    have full := full_small low high empty beyond
    rw [retrieve_over (offers_all high) high beyond, List.drop_length, bind_eq_ok] at run
    obtain ⟨d, put, same⟩ := run
    cases same
    apply (putFits_over beyond).mp
    apply fits_of_put full put
    rw [kept, parts_contents, parts_contents, List.append_assoc, List.take_append_drop]

/-- The bytes at the start of the vector, of which the writer passes some. -/
theorem write_start {d c : IoBuffer} {data buf : Bytes} {k : Nat} (reader : d.readerIndex = 8)
    (writer : d.writerIndex = 8) (stored : store d.buf d.writerIndex data = .ok buf)
    (some_ : 0 < k) (short : k ≤ data.length) (moved : { d with buf := buf }.wseek k = .ok c) :
    c.Layout ∧ c.contents = data.take k := by
  obtain ⟨_, _, high, rfl⟩ := wseek_eq_ok.mp moved
  unfold store at stored
  split at stored
  · rename_i fits
    cases stored
    rw [writer] at fits high
    have eight : (d.buf.take 8).length = 8 := by
      rw [List.length_take]
      omega
    have split : (⟨d.buf.take d.writerIndex.toNat ++ data ++ d.buf.drop (d.writerIndex.toNat + data.length),
        d.readerIndex, d.writerIndex + k⟩ : IoBuffer) = parts (d.buf.take 8) (data.take k)
          (data.drop k ++ d.buf.drop (8 + data.length)) := by
      rw [parts, reader, writer, eight, List.length_take, Nat.min_eq_left short, ← List.append_assoc,
        ← List.append_assoc, List.append_assoc (d.buf.take 8), List.take_append_drop]
      rfl
    dsimp only
    rw [split]
    refine ⟨(parts_layout ..).mpr ⟨Nat.le_of_eq eight.symm, ?_, fun _ => eight⟩, parts_contents ..⟩
    rw [eight, List.length_take, Nat.min_eq_left short]
    omega
  · cases stored

/-- A `Put` into a new buffer that returns although the writer cannot move so far: the size has lost
its upper half, the vector holds all the bytes and the writer stands behind the first of them. -/
theorem put_wraps {c : IoBuffer} {data : Bytes} (long : 2147483648 ≤ data.length + 8)
    (run : (new kInitialSize).put data = .ok c) : c.Layout ∧ ∃ k, k < data.length ∧
      c.contents = data.take k := by
  simp only [put, bind_eq_ok] at run
  obtain ⟨d, spaced, buf, stored, moved⟩ := run
  have width : (new kInitialSize).buf.length = 1032 := List.length_replicate
  have room : (new kInitialSize).writableBytes = 1024 := by
    rw [writableBytes, width]
    exact toInt_small (by decide) (by decide)
  have bounds := toInt_bounds data.length
  unfold ensureSpace at spaced
  rw [room] at spaced
  split at spaced
  · rename_i tight
    simp only [makeSpace, room, bind_eq_ok, addInt_eq_ok, kCheapPrepend] at spaced
    obtain ⟨_, ⟨rfl, _⟩, _, ⟨rfl, _, high⟩, grown⟩ := spaced
    have narrow : 1024 + (new kInitialSize).prependBytes < toInt data.length + 8 := by
      change (1024 : Int) + 8 < _
      omega
    rw [if_pos narrow] at grown
    cases grown
    obtain ⟨k, size⟩ := Int.eq_ofNat_of_zero_le (a := toInt data.length) (by omega)
    have short : k < data.length := by
      unfold toInt at size high
      omega
    rw [size] at moved
    obtain ⟨layout, contents⟩ := write_start rfl rfl stored (by omega) (Nat.le_of_lt short) moved
    exact ⟨layout, k, short, contents⟩
  · cases spaced
    unfold store at stored
    rw [if_neg] at stored
    · cases stored
    · rw [width]
      change ¬ (0 ≤ (8 : Int) ∧ (8 : Int) + data.length ≤ (1032 : Nat))
      omega

end Yamq.IoBuffer
