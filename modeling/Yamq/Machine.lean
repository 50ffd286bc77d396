import Mathlib.Order.Basic

/-! What the C++ abstract machine contributes: the outcomes that have no defined continuation,
the 32-bit `int` and its conversions. A function of the source that can reach such an outcome
returns `Except Fault`. -/
namespace Yamq

/-- Where the program has no defined next state, or stops itself. -/
inductive Fault where
  | assertion     -- a failed `assert`
  | outOfBounds   -- an access outside a vector
  | intOverflow   -- signed overflow
  | abort         -- `LOG(FATAL)` and `abort()`
  | nullPointer   -- a dereferenced NULL
  | wildPointer   -- a dereferenced pointer that was never set
  | useAfterFree  -- an object used after it was freed or deleted
  | endless       -- a loop that never ends
deriving DecidableEq, Repr

@[simp] theorem ok_bind {ε α β : Type} (a : α) (f : α → Except ε β) : (.ok a >>= f) = f a := (rfl)

@[simp] theorem error_bind {ε α β : Type} (e : ε) (f : α → Except ε β) :
    (.error e >>= f) = .error e := (rfl)

theorem ok_ne_error {ε α : Type} {a : α} {e : ε} : (.ok a : Except ε α) ≠ .error e := nofun

@[simp] theorem pure_ok {ε α : Type} (a : α) : (pure a : Except ε α) = .ok a := (rfl)

/-- A computation that returns has returned from each of its parts. -/
theorem bind_eq_ok {ε α β : Type} {x : Except ε α} {f : α → Except ε β} {b : β} :
    (x >>= f) = .ok b ↔ ∃ a, x = .ok a ∧ f a = .ok b := by
  cases x <;> simp

theorem toOption_eq_some {ε α : Type} {x : Except ε α} {a : α} : x.toOption = some a ↔ x = .ok a := by
  cases x <;> simp [Except.toOption]

theorem bind_error {ε α β : Type} {x : Except ε α} {e : ε} (stops : x = .error e)
    {f : α → Except ε β} : (x >>= f) = .error e := by
  rw [stops, error_bind]

abbrev Byte := UInt8
abbrev Bytes := List Byte

def ascii (s : String) : Bytes := s.toList.map (fun c => c.toNat.toUInt8)

/-- `'\r'` and `'\n'`, the bytes of `kCRLF`. -/
def CR : Byte := 13
def LF : Byte := 10

theorem CR_ne_LF : CR ≠ LF := by decide

/-- Conversion to the 32-bit `int`, which keeps the low 32 bits. -/
@[irreducible] def toInt (n : Int) : Int := (n + 2147483648) % 4294967296 - 2147483648

/-- Conversion to the 64-bit `size_t`. -/
@[irreducible] def toSize (n : Int) : Nat := (n % 18446744073709551616).toNat

/-- Addition of two `int`s. Overflow is undefined. -/
@[irreducible] def addInt (a b : Int) : Except Fault Int :=
  if -2147483648 ≤ a + b ∧ a + b < 2147483648 then .ok (a + b) else .error .intOverflow

theorem toInt_small {n : Int} (low : -2147483648 ≤ n) (high : n < 2147483648) : toInt n = n := by
  unfold toInt; omega

theorem toInt_bounds (n : Int) : -2147483648 ≤ toInt n ∧ toInt n < 2147483648 := by
  unfold toInt; omega

theorem toSize_small {n : Int} (low : 0 ≤ n) (high : n < 18446744073709551616) : toSize n = n.toNat := by
  unfold toSize; omega

theorem addInt_ok {a b : Int} (low : -2147483648 ≤ a + b) (high : a + b < 2147483648) :
    addInt a b = .ok (a + b) := by
  unfold addInt; exact if_pos ⟨low, high⟩

theorem addInt_eq_ok {a b c : Int} :
    addInt a b = .ok c ↔ c = a + b ∧ -2147483648 ≤ a + b ∧ a + b < 2147483648 := by
  unfold addInt
  split
  · rename_i fits
    constructor
    · intro h; exact ⟨(Except.ok.inj h).symm, fits⟩
    · rintro ⟨rfl, _⟩; rfl
  · rename_i beyond
    constructor
    · intro h; cases h
    · rintro ⟨_, fits⟩; exact absurd fits beyond

end Yamq
