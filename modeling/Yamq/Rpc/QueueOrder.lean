import Yamq.Rpc.Executed

/-! What `RunInEvd` promises about the functors that other threads queue. -/
namespace Yamq.EventDispatcher

open Transition

variable {F W : Type} {exec : F → W → W} {d d' e : EventDispatcher F W}

theorem InOrder.nodup (h : d.InOrder) : d.ran.Nodup := by
  have whole : (d.ran ++ (d.batch ++ d.pending).map Queued.ticket).Nodup := by
    rw [h]
    exact List.nodup_range
  exact (List.nodup_append.mp whole).1

/-- What has run is an initial part of all that was queued. -/
theorem InOrder.ran_eq (h : d.InOrder) : d.ran = List.range d.ran.length := by
  have whole := congrArg (List.take d.ran.length) h
  have short : d.ran.length ≤ d.nextTicket := by
    have length := congrArg List.length h
    simp only [List.length_append, List.length_range] at length
    omega
  rwa [List.take_left, List.take_range, Nat.min_eq_left short] at whole

theorem InOrder.sublist (h : d.InOrder) {t u : Nat} (before : t < u) (ran : u ∈ d.ran) :
    [t, u].Sublist d.ran := by
  rw [h.ran_eq] at ran ⊢
  have inside := List.mem_range.mp ran
  have pairs : ∀ n, u < n → [t, u].Sublist (List.range n) := by
    intro n
    induction n with
    | zero => exact fun wrong => absurd wrong (Nat.not_lt_zero u)
    | succ n ih =>
      intro small
      rw [List.range_succ]
      rcases Nat.lt_succ_iff_lt_or_eq.mp small with less | rfl
      · exact (ih less).trans (List.sublist_append_left ..)
      · exact List.Sublist.append (List.singleton_sublist.mpr (List.mem_range.mpr before))
          (List.Sublist.refl [u])
  exact pairs _ inside

theorem nextTicket_step {a : Act F} (taken : Steps exec d a d') : d.nextTicket ≤ d'.nextTicket := by
  unfold Steps step at taken
  split at taken
  · split at taken <;> cases taken
    exact Nat.le_succ _
  · split at taken <;> cases taken
    exact Nat.le_succ _
  · split at taken <;> cases taken
    exact Nat.le_refl _
  · obtain ⟨_, _, _, woken, _⟩ := wakeup_keeps d
    unfold callerStep at taken
    split at taken
    · cases taken
    · cases taken; exact Nat.le_refl _
    · split at taken <;> cases taken <;> exact Nat.le_refl _
    · cases taken; exact Nat.le_of_eq woken.symm
    · split at taken <;> cases taken <;> exact Nat.le_refl _
    · cases taken; exact Nat.le_of_eq woken.symm
  · split at taken <;> cases taken
    exact Nat.le_refl _
  · split at taken
    · split at taken <;> cases taken
      exact Nat.le_refl _
    · cases taken
  · unfold loopStep at taken
    split at taken <;> cases taken <;> exact Nat.le_refl _

theorem nextTicket_run (run : Reaches (Steps exec) Free d e) : d.nextTicket ≤ e.nextTicket := by
  apply run.invariant (Nat.le_refl _)
  intro x a y kept _ taken
  exact Nat.le_trans kept (nextTicket_step taken)

/-- The first `n` functors have run or stand in the batch that is running. -/
def Swapped (n : Nat) (d : EventDispatcher F W) : Prop :=
  ∀ t < n, t ∈ d.ran ∨ t ∈ d.batch.map Queued.ticket

theorem Swapped.congr {n : Nat} (h : d.Swapped n) (ran : d'.ran = d.ran)
    (batch : d'.batch = d.batch) : d'.Swapped n := by
  unfold Swapped
  rw [ran, batch]
  exact h

theorem Swapped.loopStep {n : Nat} (h : d.Swapped n) (taken : d.loopStep exec = some d') :
    d'.Swapped n := by
  unfold EventDispatcher.loopStep at taken
  split at taken
  · rename_i pc
    cases taken; exact h.congr rfl (by simp [batch, pc])
  · rename_i pc
    cases taken; exact h.congr rfl (by simp [batch, pc])
  · -- before a swap the batch is empty, so all of them have run
    rename_i pc
    cases taken
    intro t small
    rcases h t small with ran | held
    · exact .inl ran
    · simp [batch, pc] at held
  · rename_i pc
    cases taken; exact h.congr rfl (by simp [batch, pc])
  · rename_i q rest pc
    cases taken
    intro t small
    rcases h t small with ran | held
    · exact .inl (List.mem_append_left _ ran)
    · simp only [batch, pc, List.map_cons, List.mem_cons] at held
      rcases held with rfl | held
      · exact .inl (List.mem_append_right _ (List.mem_singleton_self _))
      · exact .inr held
  · rename_i pc
    cases taken; exact h.congr rfl (by simp [batch, pc])
  · rename_i pc
    cases taken
    refine h.congr rfl ?_
    cases d.stop <;> simp [batch, pc]
  · cases taken

theorem Swapped.step {n : Nat} (h : d.Swapped n) {a : Act F} (taken : Steps exec d a d') :
    d'.Swapped n := by
  unfold Steps EventDispatcher.step at taken
  split at taken
  · split at taken <;> cases taken
    exact h.congr rfl rfl
  · split at taken <;> cases taken
    exact h.congr rfl rfl
  · split at taken <;> cases taken
    exact h.congr rfl rfl
  · obtain ⟨ran, batch, _⟩ := wakeup_keeps d
    have woken : d.wakeup.Swapped n := h.congr ran batch
    unfold callerStep at taken
    split at taken
    · cases taken
    · cases taken; exact h.congr rfl rfl
    · split at taken <;> cases taken <;> exact h.congr rfl rfl
    · cases taken; exact woken.congr rfl rfl
    · split at taken <;> cases taken <;> exact h.congr rfl rfl
    · cases taken; exact woken.congr rfl rfl
  · split at taken <;> cases taken
    rename_i pc
    exact h.congr rfl (by simp [batch, pc])
  · split at taken
    · rename_i pc
      split at taken <;> cases taken
      exact h.congr rfl (by simp [batch, pc])
    · cases taken
  · exact h.loopStep taken

/-- The swap of `runPendingFunctor` takes everything that was pushed before it. -/
theorem swap_swapped (h : d.InOrder) (calling : d.loop = .calling)
    (taken : Steps exec d .loop d') : d'.Swapped d.nextTicket := by
  have swapped : d' = { d with loop := .running d.pending, pending := [] } := by
    simp only [Steps, step, loopStep, calling] at taken
    exact (Option.some.inj taken).symm
  intro t small
  have queued : t ∈ d.ran ++ (d.batch ++ d.pending).map Queued.ticket := by
    rw [h]
    exact List.mem_range.mpr small
  have none : d.batch = [] := by simp [batch, calling]
  rw [none, List.nil_append] at queued
  rw [swapped]
  exact List.mem_append.mp queued

/-- In every run: no functor runs twice; two functors queued by one thread run in the order in which
it queued them; and when a `runPendingFunctor` returns, every functor pushed before its swap has
run. In each of these states the world is what the functors that have run and the handlers have made of
it. Whatever a functor hands to `RunInEvd` on the loop thread is part of `exec`. -/
theorem queued_run_once_in_order (exec : F → W → W) (wakeupFd eventfd : Int) (world : W)
    (d : EventDispatcher F W) (run : Reaches (Steps exec) Free (new wakeupFd eventfd world) d) :
    (Executed exec (new wakeupFd eventfd world) d ∧ d.ran.Nodup) ∧
    (∀ i cb d' e cb' e' s, Steps exec d (.runInEvd i cb) d' → Reaches (Steps exec) Free d' e →
      Steps exec e (.runInEvd i cb') e' → Reaches (Steps exec) Free e' s →
      Executed exec (new wakeupFd eventfd world) s ∧
        (e.nextTicket ∈ s.ran → [d.nextTicket, e.nextTicket].Sublist s.ran)) ∧
    (∀ d' e, d.loop = .calling → Steps exec d .loop d' → Reaches (Steps exec) Free d' e →
      e.loop = .testing → Executed exec (new wakeupFd eventfd world) e ∧
        ∀ ticket < d.nextTicket, ticket ∈ e.ran) := by
  have order := inOrder_of_reaches run
  refine ⟨⟨executed_of_reaches run, order.nodup⟩, ?_, ?_⟩
  · intro i cb d' e cb' e' s first middle second rest
    have pushed : d.nextTicket < d'.nextTicket := by
      simp only [Steps, step] at first
      split at first <;> cases first
      exact Nat.lt_succ_self _
    have whole : Reaches (Steps exec) Free (new wakeupFd eventfd world) s :=
      (((run.step trivial first).trans middle).step trivial second).trans rest
    have before : d.nextTicket < e.nextTicket := Nat.lt_of_lt_of_le pushed (nextTicket_run middle)
    exact ⟨executed_of_reaches whole, (inOrder_of_reaches whole).sublist before⟩
  · intro d' e calling swap rest returned
    refine ⟨executed_of_reaches ((run.step trivial swap).trans rest), fun ticket small => ?_⟩
    have swapped : e.Swapped d.nextTicket :=
      rest.invariant (swap_swapped order calling swap) fun _ _ _ h _ taken => h.step taken
    have none : e.batch = [] := by simp [batch, returned]
    rcases swapped ticket small with ran | held
    · exact ran
    · simp [none] at held

/-- Thread 1 queues two functors before a swap. When that batch has run they have changed the world in
this order. -/
theorem queued_run_once_in_order_twice : ∃ d e : EventDispatcher Nat (List Nat),
    Reaches (Steps fun f w => w ++ [f]) Free (new 0 7 []) d ∧ d.loop = .calling ∧ d.nextTicket = 2 ∧
      Reaches (Steps fun f w => w ++ [f]) Free d e ∧ e.loop = .testing ∧ e.world = [5, 6] ∧
      Executed (fun f w => w ++ [f]) (new 0 7 []) e ∧ ∀ ticket < 2, ticket ∈ e.ran := by
  let exec (f : Nat) (w : List Nat) := w ++ [f]
  let after (labels : List (Act Nat)) (d : EventDispatcher Nat (List Nat)) :=
    (labels.foldlM (step exec) d).getD d
  let d := after [.runInEvd 1 5, .caller 1, .caller 1, .runInEvd 1 6, .loop, .loop] (new 0 7 [])
  let d' := after [.loop] d
  let e := after [.loop, .loop, .loop, .loop] d'
  have run : Reaches (Steps exec) Free (new 0 7 []) d := .of_labels (step exec) [.runInEvd 1 5,
    .caller 1, .caller 1, .runInEvd 1 6, .loop, .loop] rfl
  have swap : Steps exec d .loop d' := rfl
  have rest : Reaches (Steps exec) Free d' e :=
    .of_labels (step exec) [.loop, .loop, .loop, .loop] rfl
  obtain ⟨executed, all⟩ := (queued_run_once_in_order exec 0 7 [] d run).2.2 d' e rfl swap rest rfl
  have whole : Reaches (Steps exec) Free d e := (Reaches.start.step trivial swap).trans rest
  exact ⟨d, e, run, rfl, rfl, whole, rfl, rfl, executed, all⟩

end Yamq.EventDispatcher
