import Mathlib.Data.List.Induction

/-! Runs of a labelled transition system some of whose steps are allowed. Both relations are
parameters: `Step s a t` is a step from `s` to `t` under the label `a`, and `Allowed s a` says which
labels a run may take in `s`. -/
namespace Transition

universe u v

variable {σ : Type u} {α : Type v}

/-- `t` lies on a run of allowed steps from `s`. -/
inductive Reaches (Step : σ → α → σ → Prop) (Allowed : σ → α → Prop) (s : σ) : σ → Prop where
  | start : Reaches Step Allowed s s
  | step {t u : σ} {a : α} : Reaches Step Allowed s t → Allowed t a → Step t a u →
      Reaches Step Allowed s u

/-- Every label is allowed everywhere. -/
def Free : σ → α → Prop := fun _ _ => True

variable {Step : σ → α → σ → Prop} {Allowed Allowed' : σ → α → Prop} {s t u : σ}

/-- What holds at the start and is kept by every allowed step holds along the run. -/
theorem Reaches.invariant {Inv : σ → Prop} (run : Reaches Step Allowed s t) (init : Inv s)
    (keep : ∀ x a y, Inv x → Allowed x a → Step x a y → Inv y) : Inv t := by
  induction run with
  | start => exact init
  | step _ allowed taken ih => exact keep _ _ _ ih allowed taken

theorem Reaches.trans (front : Reaches Step Allowed s t) (back : Reaches Step Allowed t u) :
    Reaches Step Allowed s u := by
  induction back with
  | start => exact front
  | step _ allowed taken ih => exact ih.step allowed taken

theorem Reaches.mono (run : Reaches Step Allowed s t)
    (wider : ∀ x a, Allowed x a → Allowed' x a) : Reaches Step Allowed' s t := by
  induction run with
  | start => exact .start
  | step _ allowed taken ih => exact ih.step (wider _ _ allowed) taken

theorem Reaches.mono_steps {Step' : σ → α → σ → Prop} (run : Reaches Step Allowed s t)
    (wider : ∀ x a y, Step x a y → Step' x a y) : Reaches Step' Allowed s t := by
  induction run with
  | start => exact .start
  | step _ allowed taken ih => exact ih.step allowed (wider _ _ _ taken)

/-- Labels taken one after the other by a step function, each after a check that it is allowed. -/
theorem Reaches.of_checked (step : σ → α → Option σ) (check : σ → α → Bool)
    (sound : ∀ s a, check s a = true → Allowed s a) (labels : List α) {s t : σ}
    (run : labels.foldlM (fun s a => if check s a then step s a else none) s = some t) :
    Reaches (fun s a t => step s a = some t) Allowed s t := by
  induction labels generalizing s with
  | nil =>
    cases run
    exact .start
  | cons a labels ih =>
    rw [List.foldlM_cons] at run
    obtain ⟨u, taken, rest⟩ := Option.bind_eq_some_iff.mp run
    split at taken
    · rename_i checked
      have first : Reaches (fun s a t => step s a = some t) Allowed s u :=
        .step .start (sound s a checked) taken
      exact first.trans (ih rest)
    · cases taken

theorem foldlM_of_checked (step : σ → α → Option σ) (check : σ → α → Bool) (labels : List α) {s t : σ}
    (run : labels.foldlM (fun s a => if check s a then step s a else none) s = some t) :
    labels.foldlM step s = some t := by
  induction labels generalizing s with
  | nil => exact run
  | cons a labels ih =>
    rw [List.foldlM_cons] at run ⊢
    obtain ⟨u, taken, rest⟩ := Option.bind_eq_some_iff.mp run
    split at taken
    · exact Option.bind_eq_some_iff.mpr ⟨u, taken, ih rest⟩
    · cases taken

theorem Reaches.of_labels (step : σ → α → Option σ) (labels : List α) {s t : σ}
    (run : labels.foldlM step s = some t) : Reaches (fun s a t => step s a = some t) Free s t :=
  .of_checked step (fun _ _ => true) (fun _ _ _ => trivial) labels run

/-- A step function beside which a book is kept. -/
def keeping {β : Type} (step : σ → α → Option σ) (note : σ → α → β → β) (s : σ × β) (a : α) :
    Option (σ × β) :=
  (step s.1 a).map fun t => (t, note s.1 a s.2)

theorem keeping_eq_some {β : Type} {step : σ → α → Option σ} {note : σ → α → β → β} {s t : σ × β} {a : α} :
    keeping step note s a = some t ↔ step s.1 a = some t.1 ∧ t.2 = note s.1 a s.2 := by
  rw [keeping, Option.map_eq_some_iff]
  constructor
  · rintro ⟨u, taken, rfl⟩
    exact ⟨taken, rfl⟩
  · rintro ⟨taken, noted⟩
    exact ⟨t.1, taken, Prod.ext rfl noted.symm⟩

theorem foldlM_of_keeping {β : Type} (step : σ → α → Option σ) (note : σ → α → β → β) (labels : List α)
    {s t : σ × β} (run : labels.foldlM (keeping step note) s = some t) :
    labels.foldlM step s.1 = some t.1 := by
  induction labels generalizing s with
  | nil =>
    cases run
    rfl
  | cons a labels ih =>
    rw [List.foldlM_cons] at run ⊢
    obtain ⟨u, taken, rest⟩ := Option.bind_eq_some_iff.mp run
    exact Option.bind_eq_some_iff.mpr ⟨u.1, (keeping_eq_some.mp taken).1, ih rest⟩

/-! Runs with their labels, and how many of a kind they can have. -/

inductive Runs (Step : σ → α → σ → Prop) (Allowed : σ → α → Prop) (s : σ) : List α → σ → Prop where
  | start : Runs Step Allowed s [] s
  | step {labels : List α} {t u : σ} {a : α} : Runs Step Allowed s labels t → Allowed t a → Step t a u →
      Runs Step Allowed s (labels ++ [a]) u

theorem Runs.reaches {labels : List α} (run : Runs Step Allowed s labels t) :
    Reaches Step Allowed s t := by
  induction run with
  | start => exact .start
  | step _ allowed taken ih => exact ih.step allowed taken

theorem Reaches.runs (run : Reaches Step Allowed s t) : ∃ labels, Runs Step Allowed s labels t := by
  induction run with
  | start => exact ⟨[], .start⟩
  | step _ allowed taken ih =>
    obtain ⟨labels, before⟩ := ih
    exact ⟨_, before.step allowed taken⟩

/-- Labels taken one after the other by a function that makes allowed steps only. -/
theorem Runs.of_function (next : σ → α → Option σ)
    (sound : ∀ x a y, next x a = some y → Allowed x a ∧ Step x a y) (labels : List α) {s t : σ}
    (run : labels.foldlM next s = some t) : Runs Step Allowed s labels t := by
  induction labels using List.reverseRecOn generalizing t with
  | nil =>
    cases run
    exact .start
  | append_singleton labels a ih =>
    rw [List.foldlM_append] at run
    obtain ⟨u, front, last⟩ := Option.bind_eq_some_iff.mp run
    rw [List.foldlM_cons] at last
    obtain ⟨v, taken, rest⟩ := Option.bind_eq_some_iff.mp last
    cases rest
    obtain ⟨allowed, step⟩ := sound u a t taken
    exact .step (ih front) allowed step

theorem Runs.of_labels (step : σ → α → Option σ) (labels : List α) {s t : σ}
    (run : labels.foldlM step s = some t) : Runs (fun s a t => step s a = some t) Free s labels t :=
  .of_function step (fun _ _ _ taken => ⟨trivial, taken⟩) labels run

/-- A measure that rises by what is supplied at most, and that the labels `p` decrease, bounds their
number. -/
theorem Runs.countP_supplied (Inv : σ → Prop) (p : α → Bool) (rank supply : σ → Nat)
    {labels : List α} (run : Runs Step Allowed s labels t) (init : Inv s)
    (keep : ∀ x a y, Inv x → Allowed x a → Step x a y → Inv y)
    (fall : ∀ x a y, Inv x → Allowed x a → Step x a y →
      rank y + (if p a then 1 else 0) + supply x ≤ rank x + supply y) :
    labels.countP p + rank t + supply s ≤ rank s + supply t := by
  induction run with
  | start => simp
  | @step labels t u a run allowed taken ih =>
    have inv : Inv t := run.reaches.invariant init keep
    have less := fall t a u inv allowed taken
    rw [List.countP_append, List.countP_singleton]
    omega

/-- A measure that no step increases, and that the labels `p` decrease, bounds their number. -/
theorem Runs.countP_le (Inv : σ → Prop) (p : α → Bool) (rank : σ → Nat) {labels : List α}
    (run : Runs Step Allowed s labels t) (init : Inv s)
    (keep : ∀ x a y, Inv x → Allowed x a → Step x a y → Inv y)
    (fall : ∀ x a y, Inv x → Allowed x a → Step x a y →
      rank y + (if p a then 1 else 0) ≤ rank x) :
    labels.countP p + rank t ≤ rank s :=
  run.countP_supplied Inv p rank (fun _ => 0) init keep fall

end Transition
