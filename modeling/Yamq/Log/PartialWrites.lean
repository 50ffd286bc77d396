import Yamq.Log.RollSize
import Mathlib.Algebra.GroupWithZero.Nat

/-! Short writes: the loop of `append` counts what is left, but hands `fwrite` the whole block again. -/
namespace Yamq.Files

/-- The first of a stream of results. -/
def firsts (x : Nat → Nat) (n : Nat) : List Nat := (List.range n).map x

theorem firsts_succ (x : Nat → Nat) (n : Nat) :
    firsts x (n + 1) = x 0 :: firsts (fun i => x (i + 1)) n := by
  rw [firsts, List.range_succ_eq_map, List.map_cons, List.map_map]
  rfl

/-- With these results of `fwrite` the call returns, and what the file got is the front of the block, as
long as the call says. -/
def WritesFront (w : AppendFileWrapper) (s : FileSystem) (ino : Nat) (data : Bytes) (opens : Bool)
    (x : Nat → Nat) : Prop :=
  ∃ n written w' s', w.append s data opens (firsts x n) = .ok (written, w', s') ∧
    written ≤ data.length ∧
    s'.bytes = Function.update s.bytes ino (s.bytes ino ++ data.take written)

/-- Behind `sent` bytes of the block: a write that takes bytes takes at most those that are left, and
the front of the block, which it is handed, has the bytes that come next. -/
def Resumes (data : Bytes) (sent : Nat) (x : Nat → Nat) : Prop :=
  ∀ n, (∀ i < n, 0 < x i) → sent + (firsts x n).sum < data.length → 0 < x n →
    sent + (firsts x n).sum + x n ≤ data.length ∧
      data.take (x n) = (data.drop (sent + (firsts x n).sum)).take (x n)

section
variable {data : Bytes} {sent : Nat} {x : Nat → Nat}

theorem Resumes.first (h : Resumes data sent x) (more : sent < data.length) (some_ : 0 < x 0) :
    sent + x 0 ≤ data.length ∧ data.take (x 0) = (data.drop sent).take (x 0) :=
  h 0 (fun _ none => absurd none (Nat.not_lt_zero _)) more some_

theorem Resumes.later (h : Resumes data sent x) (some_ : 0 < x 0) :
    Resumes data (sent + x 0) fun i => x (i + 1) := by
  intro n made more writes
  have sums : (firsts x (n + 1)).sum = x 0 + (firsts (fun i => x (i + 1)) n).sum := by
    rw [firsts_succ, List.sum_cons]
  have next := h (n + 1) ?_ (by rw [sums]; omega) writes
  · rw [sums, ← Nat.add_assoc] at next
    exact next
  · intro i earlier
    cases i with
    | zero => exact some_
    | succ i => exact made i (Nat.lt_of_succ_lt_succ earlier)

/-- The first write and those behind it. -/
theorem resumes_of (first : 0 < x 0 → sent + x 0 ≤ data.length ∧
      data.take (x 0) = (data.drop sent).take (x 0))
    (later : 0 < x 0 → sent + x 0 < data.length → Resumes data (sent + x 0) fun i => x (i + 1)) :
    Resumes data sent x := by
  intro n made more writes
  cases n with
  | zero => exact first writes
  | succ n =>
    have sums : (firsts x (n + 1)).sum = x 0 + (firsts (fun i => x (i + 1)) n).sum := by
      rw [firsts_succ, List.sum_cons]
    have some_ := made 0 (Nat.succ_pos n)
    rw [sums, ← Nat.add_assoc] at more ⊢
    exact later some_ (by omega) n (fun i earlier => made (i + 1) (Nat.succ_lt_succ earlier)) more
      writes

/-- The front of the block behind what has been sent of it. -/
theorem take_sent {k : Nat} (same : data.take k = (data.drop sent).take k) :
    data.take sent ++ data.take k = data.take (sent + k) := by
  rw [same, List.take_add]

end

/-! The loop. -/

theorem FileSystem.extended_extended (s : FileSystem) (ino : Nat) (more rest : Bytes) :
    (s.extended ino more).extended ino rest = s.extended ino (more ++ rest) := by
  simp [extended, Function.update_idem]

section
variable {data : Bytes} {sent : Nat} {x : Nat → Nat} {raw : Option Nat} {s s' : FileSystem} {ino : Nat}

/-- Whatever the results, the loop only adds to the file. -/
theorem fwriteLoop_adds (results : List Nat) {remain left : Nat} (here : s.inodeOf raw = .ok ino)
    (run : AppendFileWrapper.fwriteLoop raw data results remain s = .ok (left, s')) :
    ∃ more, s'.bytes ino = s.bytes ino ++ more := by
  induction results generalizing remain s with
  | nil => cases run
  | cons k results ih =>
    rw [AppendFileWrapper.fwriteLoop_cons here] at run
    split at run
    · cases run
      exact ⟨_, s.extended_bytes ..⟩
    · split at run
      · cases run
        exact ⟨_, s.extended_bytes ..⟩
      · obtain ⟨more, rest⟩ := ih (s := s.extended ino (data.take k)) here run
        exact ⟨data.take k ++ more, by rw [rest, s.extended_bytes, List.append_assoc]⟩

/-- The first write of a loop is in the file at its end. -/
theorem fwriteLoop_first {k : Nat} {results : List Nat} {remain left : Nat}
    (here : s.inodeOf raw = .ok ino)
    (run : AppendFileWrapper.fwriteLoop raw data (k :: results) remain s = .ok (left, s')) :
    ∃ more, s'.bytes ino = s.bytes ino ++ (data.take k ++ more) := by
  rw [AppendFileWrapper.fwriteLoop_cons here] at run
  split at run
  · cases run
    exact ⟨[], by rw [s.extended_bytes, List.append_nil]⟩
  · split at run
    · cases run
      exact ⟨[], by rw [s.extended_bytes, List.append_nil]⟩
    · obtain ⟨more, rest⟩ := fwriteLoop_adds results (s := s.extended ino (data.take k)) here run
      exact ⟨more, by rw [rest, s.extended_bytes, List.append_assoc]⟩

/-- A loop that has sent the front of the block, and ends with the front of the block in the file. -/
theorem fwriteLoop_resumes (n : Nat) {before : Bytes} {left written : Nat}
    (bounded : ∀ i, x i ≤ data.length) (short : data.length < 18446744073709551616)
    (here : s.inodeOf raw = .ok ino) (more : sent < data.length)
    (holds : s.bytes ino = before ++ data.take sent)
    (run : AppendFileWrapper.fwriteLoop raw data (firsts x n) (data.length - sent) s = .ok (left, s'))
    (within : written ≤ data.length) (ends : s'.bytes ino = before ++ data.take written) :
    Resumes data sent x := by
  induction n generalizing x sent s with
  | zero => cases run
  | succ n ih =>
    rw [firsts_succ] at run
    obtain ⟨rest, added⟩ := fwriteLoop_first here run
    have first := bounded 0
    -- what has been sent, the first write and the rest are the front of the block
    have front : data.take sent ++ data.take (x 0) ++ rest = data.take written := by
      rw [ends, holds, List.append_assoc] at added
      rw [List.append_assoc]
      exact (List.append_cancel_left added).symm
    have lengths := congrArg List.length front
    simp only [List.length_append, List.length_take] at lengths
    have fits : sent + x 0 ≤ written := by omega
    have same : data.take (x 0) = (data.drop sent).take (x 0) := by
      have whole : data.take written = data.take sent ++ (data.drop sent).take (written - sent) := by
        rw [← List.take_add, Nat.add_sub_cancel' (by omega)]
      rw [whole, List.append_assoc] at front
      have next := congrArg (List.take (x 0)) (List.append_cancel_left front)
      rwa [List.take_append_of_le_length (by rw [List.length_take]; omega), List.take_take,
        Nat.min_self,
        List.take_take, Nat.min_eq_left (by omega)] at next
    refine resumes_of (fun _ => ⟨by omega, same⟩) fun some_ less => ?_
    have left_ : toSize (((data.length - sent : Nat) : Int) - (x 0 : Nat)) =
        data.length - (sent + x 0) := by
      rw [toSize_small] <;> omega
    rw [AppendFileWrapper.fwriteLoop_cons here, if_neg (Nat.ne_of_gt some_), left_,
      if_neg (by omega)] at run
    refine ih (s := s.extended ino (data.take (x 0))) (fun i => bounded (i + 1)) here less ?_ run
    rw [s.extended_bytes, holds, List.append_assoc, take_sent same]

/-- A loop that resumes ends with the front of the block in the file. -/
theorem Resumes.loop (h : Resumes data sent x) (bounded : ∀ i, x i ≤ data.length)
    (short : data.length < 18446744073709551616) (here : s.inodeOf raw = .ok ino)
    (more : sent < data.length) :
    ∃ n written, sent ≤ written ∧ written ≤ data.length ∧
      AppendFileWrapper.fwriteLoop raw data (firsts x n) (data.length - sent) s =
        .ok (data.length - written, s.extended ino ((data.drop sent).take (written - sent))) := by
  induction room : data.length - sent using Nat.strongRecOn generalizing x sent s with
  | ind room ih =>
    subst room
    by_cases none : x 0 = 0
    · refine ⟨1, sent, Nat.le_refl _, Nat.le_of_lt more, ?_⟩
      rw [firsts_succ, AppendFileWrapper.fwriteLoop_cons here, if_pos none, none, Nat.sub_self,
        List.take_zero,
        List.take_zero]
    · have some_ := Nat.pos_of_ne_zero none
      obtain ⟨fits, same⟩ := h.first more some_
      have left_ : toSize (((data.length - sent : Nat) : Int) - (x 0 : Nat)) =
          data.length - (sent + x 0) := by
        rw [toSize_small] <;> omega
      rcases Nat.lt_or_eq_of_le fits with less | whole
      · obtain ⟨n, written, low, high, run⟩ := ih (data.length - (sent + x 0)) (by omega)
          (s := s.extended ino (data.take (x 0))) (h.later some_) (fun i => bounded (i + 1)) here
          less rfl
        refine ⟨n + 1, written, by omega, high, ?_⟩
        have joined : data.take (x 0) ++ (data.drop (sent + x 0)).take (written - (sent + x 0)) =
            (data.drop sent).take (written - sent) := by
          rw [same, ← List.drop_drop, ← List.take_add]
          congr 1
          omega
        rw [firsts_succ, AppendFileWrapper.fwriteLoop_cons here, if_neg none, left_, if_neg (by omega),
          run,
          FileSystem.extended_extended, joined]
      · refine ⟨1, data.length, Nat.le_of_lt more, Nat.le_refl _, ?_⟩
        have all : x 0 = data.length - sent := by omega
        rw [firsts_succ, AppendFileWrapper.fwriteLoop_cons here, if_neg none, left_, if_pos (by omega),
          same, all,
          Nat.sub_self]

end

section
variable {w : AppendFileWrapper} {s : FileSystem} {ino : Nat} {data : Bytes} {opens : Bool}
  {x : Nat → Nat}

theorem WritesFront.resumes (open_ : Open w s ino) (bounded : ∀ i, x i ≤ data.length)
    (short : data.length < 18446744073709551616) (writes : WritesFront w s ino data opens x) :
    Resumes data 0 x := by
  obtain ⟨n, written, w', s', run, within, bytes⟩ := writes
  by_cases none : data = []
  · subst none
    intro n _ more _
    exact absurd more (Nat.not_lt_zero _)
  · rw [AppendFileWrapper.append_checked open_.valid none (open_.checkIfOpen opens)] at run
    cases loop : AppendFileWrapper.fwriteLoop w.raw data (firsts x n) data.length s with
    | error f => rw [loop] at run; cases run
    | ok r =>
      rw [loop] at run
      cases run
      have holds : s.bytes ino = s.bytes ino ++ data.take 0 := by simp
      refine fwriteLoop_resumes n bounded short open_.inodeOf (List.length_pos_iff.mpr none) holds
        (by simpa using loop) within ?_
      rw [bytes, Function.update_self]

theorem Resumes.writesFront (open_ : Open w s ino) (bounded : ∀ i, x i ≤ data.length)
    (short : data.length < 18446744073709551616) (resumes : Resumes data 0 x) :
    WritesFront w s ino data opens x := by
  by_cases none : data = []
  · subst none
    refine ⟨0, 0, w, s, if_pos (Bool.or_eq_true_iff.mpr (.inr rfl)), Nat.le_refl _, ?_⟩
    simp
  · obtain ⟨n, written, _, within, run⟩ :=
      resumes.loop bounded short open_.inodeOf (List.length_pos_iff.mpr none)
    rw [Nat.sub_zero] at run
    have counted : toSize ((data.length : Int) - (data.length - written : Nat)) = written := by
      rw [toSize_small] <;> omega
    have appends : w.append s data opens (firsts x n) = .ok (written,
        { w with writenChars := w.writenChars + written }, s.extended ino (data.take written)) := by
      rw [AppendFileWrapper.append_checked open_.valid none (open_.checkIfOpen opens), run]
      simp only [Except.map, counted, List.drop_zero, Nat.sub_zero]
    exact ⟨n, written, _, _, appends, within, rfl⟩

/-- For every block and every stream of results, each at most the count requested: the append to an
open, unmoved file writes the front of the block exactly when each later write happens to take the bytes
that come next. -/
theorem writes_front_iff (open_ : Open w s ino) (bounded : ∀ i, x i ≤ data.length)
    (short : data.length < 18446744073709551616) :
    WritesFront w s ino data opens x ↔ Resumes data 0 x :=
  ⟨fun writes => writes.resumes open_ bounded short,
    fun resumes => resumes.writesFront open_ bounded short⟩

end

/-- A file that has just been opened. -/
def fresh : AppendFileWrapper × FileSystem :=
  AppendFileWrapper.new (ascii "f") {} true

theorem fresh_open : Open fresh.1 fresh.2 0 := by
  refine ⟨rfl, ⟨0, rfl, by decide, rfl⟩, rfl, rfl⟩

/-- One short write, the failure of the next. -/
theorem writes_front_short :
    WritesFront fresh.1 fresh.2 0 (ascii "abc") true fun i => if i = 0 then 1 else 0 := by
  refine (writes_front_iff fresh_open (fun i => ?_) (by decide)).mpr fun n made more writes => ?_
  · split <;> decide
  · cases n with
    | zero => decide
    | succ n => exact absurd writes (Nat.lt_irrefl 0)

/-- Of three bytes the first write takes one and the second two: the file gets the first byte twice and
not the last one, and the call returns 3. -/
theorem first_byte_twice : Open fresh.1 fresh.2 0 ∧
    (∃ w s, fresh.1.append fresh.2 (ascii "abc") true [1, 2] = .ok (3, w, s) ∧
      s.bytes 0 = ascii "aab") ∧
    ¬ WritesFront fresh.1 fresh.2 0 (ascii "abc") true fun i => if i = 0 then 1 else 2 := by
  have runs : (fresh.1.append fresh.2 (ascii "abc") true [1, 2]).toOption.any fun r =>
      r.1 = 3 ∧ r.2.2.bytes 0 = ascii "aab" := by
    decide +kernel
  obtain ⟨⟨n, w, s⟩, run, test⟩ := (Option.any_eq_true _ _).mp runs
  obtain ⟨rfl, bytes⟩ := of_decide_eq_true test
  refine ⟨fresh_open, ⟨w, s, toOption_eq_some.mp run, bytes⟩, fun writes => ?_⟩
  have resumes := writes.resumes fresh_open (fun i => by split <;> decide) (by decide)
  have second := resumes 1 (by decide) (by decide) (by decide)
  revert second
  decide

end Yamq.Files
