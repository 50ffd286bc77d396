import Mathlib.Data.List.Basic

/-! Searching a list for two adjacent elements, and lists cut into lines that such a pair ends.
The two elements are parameters; nothing here knows what they stand for. -/
namespace PairSearch

variable {α : Type}

/-- The first position at which `x` is followed directly by `y`. -/
def findPair [DecidableEq α] (x y : α) : List α → Option Nat
  | a :: b :: rest => if a = x ∧ b = y then some 0 else (findPair x y (b :: rest)).map (· + 1)
  | _ => none

/-- `x` then `y` stand at positions `i` and `i + 1`. -/
def PairAt (x y : α) (l : List α) (i : Nat) : Prop := l[i]? = some x ∧ l[i + 1]? = some y

instance [DecidableEq α] (x y : α) (l : List α) (i : Nat) : Decidable (PairAt x y l i) :=
  inferInstanceAs (Decidable (_ ∧ _))

def NoPair (x y : α) (l : List α) : Prop := ∀ i, ¬ PairAt x y l i

theorem pairAt_succ (x y a : α) (l : List α) (i : Nat) :
    PairAt x y (a :: l) (i + 1) ↔ PairAt x y l i := by
  simp [PairAt]

theorem pairAt_bound {x y : α} {l : List α} {i : Nat} (h : PairAt x y l i) : i + 1 < l.length :=
  (List.getElem?_eq_some_iff.mp h.2).1

theorem findPair_none [DecidableEq α] (x y : α) (l : List α) : findPair x y l = none ↔ NoPair x y l := by
  induction l with
  | nil => simp [findPair, NoPair, PairAt]
  | cons a l ih =>
    cases l with
    | nil => simp [findPair, NoPair, PairAt]
    | cons b rest =>
      by_cases hit : a = x ∧ b = y
      · simp only [findPair, if_pos hit, reduceCtorEq, false_iff]
        intro none
        exact none 0 (by simp [PairAt, hit.1, hit.2])
      · simp only [findPair, if_neg hit, Option.map_eq_none_iff, ih]
        constructor
        · intro none i
          cases i with
          | zero => simpa [PairAt] using hit
          | succ i => simpa only [pairAt_succ] using none i
        · intro none i
          simpa only [pairAt_succ] using none (i + 1)

instance [DecidableEq α] (x y : α) (l : List α) : Decidable (NoPair x y l) :=
  decidable_of_iff _ (findPair_none x y l)

theorem findPair_some [DecidableEq α] (x y : α) (l : List α) (p : Nat) :
    findPair x y l = some p ↔ PairAt x y l p ∧ ∀ i < p, ¬ PairAt x y l i := by
  induction l generalizing p with
  | nil => simp [findPair, PairAt]
  | cons a l ih =>
    cases l with
    | nil => simp [findPair, PairAt]
    | cons b rest =>
      by_cases hit : a = x ∧ b = y
      · have here : PairAt x y (a :: b :: rest) 0 := by simp [PairAt, hit.1, hit.2]
        simp only [findPair, if_pos hit, Option.some.injEq]
        constructor
        · rintro rfl
          exact ⟨here, fun i hi => absurd hi (Nat.not_lt_zero i)⟩
        · rintro ⟨_, first⟩
          by_contra later
          exact first 0 (Nat.pos_of_ne_zero (Ne.symm later)) here
      · simp only [findPair, if_neg hit, Option.map_eq_some_iff, ih]
        constructor
        · rintro ⟨q, ⟨at_q, first⟩, rfl⟩
          refine ⟨(pairAt_succ ..).mpr at_q, fun i hi => ?_⟩
          cases i with
          | zero => simpa [PairAt] using hit
          | succ i => simpa only [pairAt_succ] using first i (by omega)
        · rintro ⟨at_p, first⟩
          cases p with
          | zero => exact absurd (by simpa [PairAt] using at_p) hit
          | succ q =>
            refine ⟨q, ⟨(pairAt_succ ..).mp at_p, fun i hi => ?_⟩, rfl⟩
            simpa only [pairAt_succ] using first (i + 1) (by omega)

theorem noPair_of_absent {x y : α} {l : List α} (absent : x ∉ l) : NoPair x y l := by
  rintro i ⟨at_i, _⟩
  exact absent (List.mem_of_getElem? at_i)

theorem noPair_take {x y : α} {l : List α} (h : NoPair x y l) (n : Nat) :
    NoPair x y (l.take n) := by
  intro i at_i
  have bound := pairAt_bound at_i
  simp only [List.length_take] at bound
  apply h i
  simpa [PairAt, List.getElem?_take, show i < n by omega, show i + 1 < n by omega] using at_i

theorem pairAt_append_left {x y : α} {l : List α} {i : Nat} (bound : i + 1 < l.length)
    (r : List α) : PairAt x y (l ++ r) i ↔ PairAt x y l i := by
  simp only [PairAt, List.getElem?_append_left bound,
    List.getElem?_append_left (Nat.lt_of_succ_lt bound)]

/-- A line without the pair, ended by the pair: the search stops at the end of the line. -/
theorem findPair_line [DecidableEq α] {x y : α} (distinct : x ≠ y) {l : List α} (clean : NoPair x y l)
    (r : List α) : findPair x y (l ++ x :: y :: r) = some l.length := by
  rw [findPair_some]
  refine ⟨by simp [PairAt], fun i hi at_i => ?_⟩
  by_cases inside : i + 1 < l.length
  · exact clean i ((pairAt_append_left inside _).mp at_i)
  · have last : i + 1 = l.length := by omega
    have follow : (l ++ x :: y :: r)[i + 1]? = some x := by
      rw [last, List.getElem?_append_right (Nat.le_refl _)]; simp
    exact distinct (Option.some.inj (follow.symm.trans at_i.2))

/-- Lines written one after the other, each with its ending. -/
def joinLines (x y : α) (ls : List (List α)) : List α := ls.flatMap (· ++ [x, y])

@[simp] theorem joinLines_nil (x y : α) : joinLines x y [] = [] := rfl

@[simp] theorem joinLines_cons (x y : α) (l : List α) (ls : List (List α)) :
    joinLines x y (l :: ls) = l ++ x :: y :: joinLines x y ls := by
  simp [joinLines]

@[simp] theorem joinLines_append (x y : α) (ls ms : List (List α)) :
    joinLines x y (ls ++ ms) = joinLines x y ls ++ joinLines x y ms := by
  simp [joinLines]

theorem joinLines_length (x y : α) (ls : List (List α)) :
    2 * ls.length ≤ (joinLines x y ls).length := by
  induction ls with
  | nil => simp
  | cons l ls ih => simp; omega

/-- The length of the part of a list that consists of whole lines, their endings included:
the position behind the last pair. -/
def wholeLines [DecidableEq α] (x y : α) : List α → Nat
  | a :: b :: rest =>
    if wholeLines x y (b :: rest) ≠ 0 then wholeLines x y (b :: rest) + 1
    else if a = x ∧ b = y then 2 else 0
  | _ => 0

theorem wholeLines_open [DecidableEq α] {x y : α} {l : List α} (clean : NoPair x y l) :
    wholeLines x y l = 0 := by
  induction l with
  | nil => rfl
  | cons a l ih =>
    cases l with
    | nil => rfl
    | cons b rest =>
      have tail := ih (fun i at_i => clean (i + 1) ((pairAt_succ ..).mpr at_i))
      have here : ¬ (a = x ∧ b = y) := fun hit => clean 0 (by simp [PairAt, hit.1, hit.2])
      simp [wholeLines, tail, here]

theorem wholeLines_line [DecidableEq α] {x y : α} (distinct : x ≠ y) (l t : List α) :
    wholeLines x y (l ++ x :: y :: t) = l.length + 2 + wholeLines x y t := by
  induction l with
  | nil =>
    cases t with
    | nil => simp [wholeLines]
    | cons b t =>
      have skip : ¬ (y = x ∧ b = y) := fun h => distinct h.1.symm
      by_cases more : wholeLines x y (b :: t) = 0
      · simp [wholeLines, more, skip]
      · simp [wholeLines, more]; omega
  | cons a l ih =>
    obtain ⟨b, rest, cons⟩ : ∃ b rest, l ++ x :: y :: t = b :: rest := by
      cases l <;> simp
    rw [List.cons_append, cons, wholeLines, ← cons, ih, if_pos (by omega), List.length_cons]
    omega

theorem wholeLines_join [DecidableEq α] {x y : α} (distinct : x ≠ y) (ls : List (List α))
    {rest : List α} (open_line : NoPair x y rest) :
    wholeLines x y (joinLines x y ls ++ rest) = (joinLines x y ls).length := by
  induction ls with
  | nil => simpa using wholeLines_open open_line
  | cons l ls ih =>
    rw [joinLines_cons, List.append_assoc, List.cons_append, List.cons_append,
      wholeLines_line distinct, ih]
    simp; omega

/-- Every prefix of joined lines is some of the lines, whole, and a piece of the next one. -/
theorem prefix_of_lines [DecidableEq α] {x y : α} (distinct : x ≠ y) (ls : List (List α))
    (clean : ∀ l ∈ ls, NoPair x y l) (front back : List α)
    (cut : front ++ back = joinLines x y ls) :
    ∃ done left rest, ls = done ++ left ∧ front = joinLines x y done ++ rest ∧
      NoPair x y rest ∧ rest ++ back = joinLines x y left := by
  induction ls generalizing front with
  | nil =>
    obtain ⟨rfl, rfl⟩ := List.append_eq_nil_iff.mp cut
    exact ⟨[], [], [], rfl, rfl, by simp [NoPair, PairAt], rfl⟩
  | cons l ls ih =>
    rw [joinLines_cons] at cut
    by_cases whole : l.length + 2 ≤ front.length
    · have split : front = l ++ x :: y :: front.drop (l.length + 2) := by
        have same := congrArg (List.take (l.length + 2)) cut
        rw [List.take_append_of_le_length whole] at same
        have pair : (l ++ x :: y :: joinLines x y ls).take (l.length + 2) = l ++ [x, y] := by
          rw [show l ++ x :: y :: joinLines x y ls = (l ++ [x, y]) ++ joinLines x y ls by simp]
          exact List.take_left' (by simp)
        rw [pair] at same
        conv_lhs => rw [← List.take_append_drop (l.length + 2) front, same]
        simp
      have tail : front.drop (l.length + 2) ++ back = joinLines x y ls := by
        rw [split] at cut
        simpa using cut
      obtain ⟨done, left, rest, hls, hfront, hrest, hback⟩ :=
        ih (fun m hm => clean m (by simp [hm])) _ tail
      refine ⟨l :: done, left, rest, by simp [hls], ?_, hrest, hback⟩
      rw [split, hfront]
      simp
    · refine ⟨[], l :: ls, front, rfl, by simp, ?_, by simpa using cut⟩
      have piece : front = (l ++ [x]).take front.length := by
        have same := congrArg (List.take front.length) cut
        rw [List.take_append_of_le_length (Nat.le_refl _), List.take_length] at same
        rw [show l ++ x :: y :: joinLines x y ls = (l ++ [x]) ++ y :: joinLines x y ls by simp,
          List.take_append_of_le_length (by simp; omega)] at same
        exact same
      have line : NoPair x y (l ++ [x]) := by
        rw [← findPair_none]
        have first := findPair_line distinct (clean l (by simp)) ([] : List α)
        by_contra hit
        obtain ⟨p, hp⟩ := Option.ne_none_iff_exists'.mp hit
        have at_p := ((findPair_some x y _ p).mp hp).1
        have bound := pairAt_bound at_p
        have long : PairAt x y (l ++ [x, y]) p := by
          simpa using (pairAt_append_left (r := [y]) bound).mpr at_p
        simp only [List.length_append, List.length_singleton] at bound
        exact ((findPair_some x y _ _).mp first).2 p (by omega) long
      rw [piece]
      exact noPair_take line _

end PairSearch
