import Mathlib.Data.List.Basic

/-! Computations that keep a list of the calls they make. They may stop with an error, and what they
have called until then stays. Without the calls they are computations in `Except`. -/

structure Traced (κ ε α : Type) where
  calls : List κ
  outcome : Except ε α

namespace Traced

variable {κ ε α β : Type}

def note (call : κ) : Traced κ ε Unit := ⟨[call], .ok ()⟩

def lift (x : Except ε α) : Traced κ ε α := ⟨[], x⟩

instance : Monad (Traced κ ε) where
  pure a := ⟨[], .ok a⟩
  bind x f :=
    match x.outcome with
    | .ok a => ⟨x.calls ++ (f a).calls, (f a).outcome⟩
    | .error e => ⟨x.calls, .error e⟩

variable {x : Traced κ ε α} {f : α → Traced κ ε β}

@[simp] theorem pure_calls (a : α) : (pure a : Traced κ ε α).calls = [] := (rfl)

@[simp] theorem pure_outcome (a : α) : (pure a : Traced κ ε α).outcome = .ok a := (rfl)

@[simp] theorem note_calls (call : κ) : (note call : Traced κ ε Unit).calls = [call] := (rfl)

@[simp] theorem note_outcome (call : κ) : (note call : Traced κ ε Unit).outcome = .ok () := (rfl)

@[simp] theorem lift_calls (y : Except ε α) : (lift y : Traced κ ε α).calls = [] := (rfl)

@[simp] theorem lift_outcome (y : Except ε α) : (lift y : Traced κ ε α).outcome = y := (rfl)

/-- Forgetting the calls commutes with running one computation behind another. -/
@[simp] theorem bind_outcome (x : Traced κ ε α) (f : α → Traced κ ε β) :
    (x >>= f).outcome = x.outcome >>= fun a => (f a).outcome := by
  change (match x.outcome with | .ok a => _ | .error e => _ : Traced κ ε β).outcome = _
  cases x.outcome <;> rfl

theorem foldlM_outcome {σ : Type} (f : σ → α → Traced κ ε σ) (xs : List α) (s : σ) :
    (xs.foldlM f s).outcome = xs.foldlM (fun s a => (f s a).outcome) s := by
  induction xs generalizing s with
  | nil => rfl
  | cons x xs ih =>
    rw [List.foldlM_cons, List.foldlM_cons, bind_outcome]
    congr 1
    funext t
    exact ih t

theorem bind_calls {a : α} (returns : x.outcome = .ok a) :
    (x >>= f).calls = x.calls ++ (f a).calls := by
  change (match x.outcome with | .ok a => _ | .error e => _ : Traced κ ε β).calls = _
  rw [returns]

theorem bind_stopped {e : ε} (stops : x.outcome = .error e) : (x >>= f).calls = x.calls := by
  change (match x.outcome with | .ok a => _ | .error e => _ : Traced κ ε β).calls = _
  rw [stops]

theorem lift_ok_bind (a : α) (f : α → Traced κ ε β) : (lift (.ok a) >>= f) = f a := (rfl)

@[simp] theorem note_bind_calls (call : κ) (f : Unit → Traced κ ε β) :
    (note call >>= f).calls = call :: (f ()).calls := (rfl)

/-! What holds of every call. -/

structure Every (P : κ → Prop) (x : Traced κ ε α) : Prop where
  each : ∀ call ∈ x.calls, P call

variable {P : κ → Prop}

theorem every_pure (a : α) : Every P (pure a : Traced κ ε α) := ⟨nofun⟩

theorem every_lift (y : Except ε α) : Every P (lift y : Traced κ ε α) := ⟨nofun⟩

theorem every_note {call : κ} (holds : P call) : Every P (note call : Traced κ ε Unit) := by
  constructor
  intro other member
  rw [List.mem_singleton.mp member]
  exact holds

theorem Every.stopped {e : ε} (first : Every P x) (stops : x.outcome = .error e) :
    Every P (x >>= f) := by
  constructor
  rw [bind_stopped stops]
  exact first.each

theorem Every.bind (first : Every P x) (next : ∀ a, x.outcome = .ok a → Every P (f a)) :
    Every P (x >>= f) := by
  cases returns : x.outcome with
  | error e => exact first.stopped returns
  | ok a =>
    constructor
    rw [bind_calls returns]
    intro call member
    rcases List.mem_append.mp member with before | behind
    · exact first.each call before
    · exact (next a returns).each call behind

end Traced
