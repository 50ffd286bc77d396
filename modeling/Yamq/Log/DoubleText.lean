import Yamq.Decimal
import Mathlib.Data.Nat.Log
import Mathlib.Data.List.DropRight

/-! What `snprintf` makes of a `double` under `%.12g`: at most 12 significant digits of its exact value,
rounded to the nearest, and without the zeros behind them. -/
namespace Yamq.Stream

/-- The values of a binary format: `mantissa * 2 ^ (exponent - bias)` where they are finite. -/
inductive Binary (precision exponents : Nat) where
  | nan (negative : Bool)
  | infinite (negative : Bool)
  | finite (negative : Bool) (mantissa : Fin (2 ^ precision)) (exponent : Fin exponents)
deriving DecidableEq, Repr

/-- `double`, whose least exponent is -1074. -/
abbrev Double := Binary 53 2046

/-- `float`, whose least exponent is -149. -/
abbrev Single := Binary 24 254

/-- `static_cast<double>(v)`. -/
def Single.toDouble : Single → Double
  | .nan negative => .nan negative
  | .infinite negative => .infinite negative
  | .finite negative mantissa exponent =>
    .finite negative (mantissa.castLE (by decide)) ⟨exponent + 925, by omega⟩

/-- `a / b`, to the nearest, and to the even one of two. -/
def roundEven (a b : Nat) : Nat :=
  if b < 2 * (a % b) ∨ b = 2 * (a % b) ∧ a / b % 2 = 1 then a / b + 1 else a / b

/-- The place of the first digit of `num / den`. -/
def firstPlace (num den : Nat) : Int :=
  if den ≤ num then Nat.log 10 (num / den) else -(Nat.clog 10 ((den + num - 1) / num) : Int)

/-- `num / den` with its first digit in the place `x`, in units of the twelfth digit. -/
def scaled (num den : Nat) (x : Int) : Nat :=
  if x ≤ 11 then roundEven (num * 10 ^ (11 - x).toNat) den
  else roundEven num (den * 10 ^ (x - 11).toNat)

/-- The twelve digits, and the place of the first of them. Rounding may carry into the next place. -/
def significant (num den : Nat) : Nat × Int :=
  let x := firstPlace num den
  let d := scaled num den x
  if d = 10 ^ 12 then (10 ^ 11, x + 1) else (d, x)

/-- The digits behind the point, without the zeros at their end, and without the point where none is
left. -/
def fractionText (digits : Bytes) : Bytes :=
  match digits.rdropWhile (· == 48) with
  | [] => []
  | rest => 46 :: rest

/-- `e+XX` -/
def exponentText (x : Int) : Bytes :=
  ascii (if x < 0 then "e-" else "e+") ++ (ascii (toString x.natAbs)).leftpad 2 48

/-- `%.12g` of a positive number. -/
def generalText (num den : Nat) : Bytes :=
  let (d, x) := significant num den
  let digits := ascii (toString d)
  if x < -4 ∨ 12 ≤ x then digits.take 1 ++ fractionText (digits.drop 1) ++ exponentText x
  else if x < 0 then ascii "0" ++ fractionText (List.replicate (-x - 1).toNat 48 ++ digits)
  else digits.take (x + 1).toNat ++ fractionText (digits.drop (x + 1).toNat)

def leastExponent : Nat := 1074

/-- One over the least positive `double`. -/
def smallest : Nat := 2 ^ leastExponent

def Double.unsignedText : Double → Bytes
  | .nan _ => ascii "nan"
  | .infinite _ => ascii "inf"
  | .finite _ mantissa exponent =>
    if mantissa = 0 then ascii "0" else generalText (mantissa * 2 ^ exponent.val) smallest

def Double.negative : Double → Bool
  | .nan negative => negative
  | .infinite negative => negative
  | .finite negative _ _ => negative

/-- `%.12g` -/
def doubleText (v : Double) : Bytes :=
  if v.negative then 45 :: v.unsignedText else v.unsignedText

/-! How long it gets. -/

theorem roundEven_le (a b : Nat) : roundEven a b ≤ a / b + 1 := by
  unfold roundEven
  split
  · exact Nat.le_refl _
  · exact Nat.le_succ _

section
variable {num den : Nat}

/-- The first digit stands in its place: the number is below the next power of ten. -/
theorem firstPlace_spec (some_ : 0 < num) (positive : 0 < den) :
    (∃ l : Nat, firstPlace num den = l ∧ num < 10 ^ (l + 1) * den ∧ 10 ^ l ≤ num) ∨
      ∃ k : Nat, firstPlace num den = -((k + 1 : Nat) : Int) ∧ num * 10 ^ k < den := by
  by_cases big : den ≤ num
  · left
    have whole : num / den ≠ 0 := Nat.ne_of_gt (Nat.div_pos big positive)
    have above := Nat.lt_pow_succ_log_self (b := 10) (by decide) (num / den)
    have below := Nat.pow_log_le_self 10 whole
    refine ⟨Nat.log 10 (num / den), if_pos big, ?_, below.trans (Nat.div_le_self ..)⟩
    exact (Nat.div_lt_iff_lt_mul positive).mp above
  · right
    have less : num < den := Nat.not_le.mp big
    have more : 1 < (den + num - 1) / num := by
      rw [Nat.lt_iff_add_one_le, Nat.le_div_iff_mul_le some_]
      omega
    have below := Nat.pow_pred_clog_lt_self (b := 10) (by decide) more
    obtain ⟨k, count⟩ := Nat.exists_eq_add_of_lt (Nat.clog_pos (b := 10) (by decide) more)
    rw [Nat.zero_add] at count
    refine ⟨k, by rw [firstPlace, if_neg big, count], ?_⟩
    rw [count, Nat.pred_succ, Nat.lt_iff_add_one_le, Nat.le_div_iff_mul_le some_, Nat.add_one_mul] at below
    rw [Nat.mul_comm]
    omega

theorem scaled_le (some_ : 0 < num) (positive : 0 < den) :
    scaled num den (firstPlace num den) ≤ 10 ^ 12 := by
  have rounds (a b : Nat) (small : a < 10 ^ 12 * b) : roundEven a b ≤ 10 ^ 12 := by
    have close := roundEven_le a b
    have below : a / b < 10 ^ 12 := Nat.div_lt_of_lt_mul (by rw [Nat.mul_comm]; exact small)
    omega
  rcases firstPlace_spec some_ positive with ⟨l, place, above, _⟩ | ⟨k, place, below⟩
  · rw [place]
    unfold scaled
    split
    · apply rounds
      have split_ : 10 ^ 12 = 10 ^ (l + 1) * 10 ^ (11 - (l : Int)).toNat := by
        rw [← Nat.pow_add]
        congr 1
        omega
      rw [split_, Nat.mul_right_comm]
      exact Nat.mul_lt_mul_of_pos_right above (Nat.pow_pos (by decide))
    · apply rounds
      have split_ : 10 ^ (l + 1) = 10 ^ 12 * 10 ^ ((l : Int) - 11).toNat := by
        rw [← Nat.pow_add]
        congr 1
        omega
      rwa [split_, Nat.mul_assoc, Nat.mul_comm _ den] at above
  · rw [place, scaled, if_pos (by omega)]
    apply rounds
    have split_ : (11 - -((k + 1 : Nat) : Int)).toNat = k + 12 := by omega
    rw [split_, Nat.pow_add, ← Nat.mul_assoc, Nat.mul_comm]
    exact Nat.mul_lt_mul_of_pos_left below (Nat.pow_pos (by decide))

theorem significant_spec (some_ : 0 < num) (positive : 0 < den) :
    (significant num den).1 < 10 ^ 12 ∧ firstPlace num den ≤ (significant num den).2 ∧
      (significant num den).2 ≤ firstPlace num den + 1 := by
  have bound := scaled_le some_ positive
  unfold significant
  dsimp only
  split
  · exact ⟨Nat.pow_lt_pow_right (by decide) (by decide), by omega, Int.le_refl _⟩
  · exact ⟨by omega, Int.le_refl _, by omega⟩

theorem fractionText_length (digits : Bytes) : (fractionText digits).length ≤ digits.length + 1 := by
  have fewer := (List.rdropWhile_prefix (· == 48) (l := digits)).length_le
  unfold fractionText
  split
  · exact Nat.zero_le _
  · rw [List.length_cons]
    exact Nat.succ_le_succ fewer

theorem exponentText_length {x : Int} (small : x.natAbs < 1000) : (exponentText x).length ≤ 5 := by
  have digits : (ascii (toString x.natAbs)).length ≤ 3 := (digits_length (by decide)).mpr small
  have mark : (ascii (if x < 0 then "e-" else "e+")).length = 2 := by
    split <;> decide
  rw [exponentText, List.length_append, mark, List.leftpad, List.length_append, List.length_replicate]
  omega

theorem generalText_length (some_ : 0 < num) (positive : 0 < den)
    (small : (firstPlace num den).natAbs < 999) : (generalText num den).length ≤ 18 := by
  obtain ⟨twelve, low, high⟩ := significant_spec some_ positive
  have digits : (ascii (toString (significant num den).1)).length ≤ 12 :=
    (digits_length (by decide)).mpr twelve
  have mark := exponentText_length (x := (significant num den).2) (by omega)
  have one : (ascii "0").length = 1 := by decide
  unfold generalText
  dsimp only
  split
  · have rest := fractionText_length ((ascii (toString (significant num den).1)).drop 1)
    rw [List.length_drop] at rest
    simp only [List.length_append, List.length_take]
    omega
  · split
    · have rest := fractionText_length (List.replicate (-(significant num den).2 - 1).toNat 48 ++
        ascii (toString (significant num den).1))
      rw [List.length_append, List.length_replicate] at rest
      rw [List.length_append]
      omega
    · have rest := fractionText_length
        ((ascii (toString (significant num den).1)).drop ((significant num den).2 + 1).toNat)
      rw [List.length_drop] at rest
      rw [List.length_append, List.length_take]
      omega

end

theorem two_pow_le {m n : Nat} (less : m ≤ 3 * n) : 2 ^ m ≤ 10 ^ n := by
  calc 2 ^ m ≤ 2 ^ (3 * n) := Nat.pow_le_pow_right (by decide) less
    _ = 8 ^ n := Nat.pow_mul 2 3 n
    _ ≤ 10 ^ n := Nat.pow_le_pow_left (by decide) n

theorem smallest_pos : 0 < smallest := Nat.two_pow_pos _

theorem smallest_le : smallest ≤ 10 ^ 997 := two_pow_le (by decide)

theorem magnitude_lt {precision exponents m e : Nat} (mantissa : m < 2 ^ precision)
    (exponent : e < exponents) : m * 2 ^ e < 2 ^ (precision + exponents) := by
  rw [Nat.pow_add]
  exact Nat.mul_lt_mul_of_lt_of_le mantissa (Nat.pow_le_pow_right (by decide) (Nat.le_of_lt exponent))
    (Nat.pow_pos (by decide))

/-- The exponent has three digits at most. -/
theorem firstPlace_double {m e : Nat} (some_ : 0 < m) (mantissa : m < 2 ^ 53) (exponent : e < 2046) :
    (firstPlace (m * 2 ^ e) smallest).natAbs < 999 := by
  have numerator : 0 < m * 2 ^ e := Nat.mul_pos some_ (Nat.pow_pos (by decide))
  rcases firstPlace_spec numerator smallest_pos with ⟨l, place, _, below⟩ | ⟨k, place, below⟩
  · have most : 2 ^ (53 + 2046) ≤ 10 ^ 998 := two_pow_le (by decide)
    have power := (below.trans_lt (magnitude_lt mantissa exponent)).trans_le most
    have := (Nat.pow_lt_pow_iff_right (by decide)).mp power
    omega
  · have least : 10 ^ k ≤ m * 2 ^ e * 10 ^ k := Nat.le_mul_of_pos_left _ numerator
    have power := (least.trans_lt below).trans_le smallest_le
    have := (Nat.pow_lt_pow_iff_right (by decide)).mp power
    omega

/-- The text and its NUL fit the 32 bytes that `snprintf` is given. -/
theorem doubleText_length (v : Double) : (doubleText v).length ≤ 19 := by
  have short : v.unsignedText.length ≤ 18 := by
    cases v with
    | nan negative => exact Nat.le_of_ble_eq_true rfl
    | infinite negative => exact Nat.le_of_ble_eq_true rfl
    | finite negative mantissa exponent =>
      rw [Double.unsignedText]
      split
      · exact Nat.le_of_ble_eq_true rfl
      · rename_i some_
        have nonzero : 0 < mantissa.val := Nat.pos_of_ne_zero fun none => some_ (Fin.ext none)
        exact generalText_length (Nat.mul_pos nonzero (Nat.pow_pos (by decide))) smallest_pos
          (firstPlace_double nonzero mantissa.isLt exponent.isLt)
  unfold doubleText
  split
  · exact Nat.succ_le_succ short
  · exact Nat.le_succ_of_le short

end Yamq.Stream
