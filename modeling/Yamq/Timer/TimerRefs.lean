import Yamq.Timer.TimerEffects

/-! `_ref`: which ids name which `Timer` objects, and when a name outlives its object. -/
namespace Yamq

namespace TimerQueue

variable {T N : Type} {q q' q'' : TimerQueue T N}

/-- The same objects with the same names. -/
structure SameTimers (q q' : TimerQueue T N) : Prop where
  refs : ∀ id p, q'.ref.lookup id = some (some p) ↔ q.ref.lookup id = some (some p)
  allocated : q'.allocated = q.allocated
  ids : ∀ p, (q'.timers p).map Timer.id = (q.timers p).map Timer.id

theorem SameTimers.refl (q : TimerQueue T N) : SameTimers q q :=
  ⟨fun _ _ => Iff.rfl, rfl, fun _ => rfl⟩

theorem SameTimers.trans (first : SameTimers q q') (second : SameTimers q' q'') : SameTimers q q'' where
  refs := fun id p => (second.refs id p).trans (first.refs id p)
  allocated := second.allocated.trans first.allocated
  ids := fun p => (second.ids p).trans (first.ids p)

theorem SameTimers.live (same : SameTimers q q') (p : Nat) :
    (q'.timers p).isSome = (q.timers p).isSome := by
  rw [← Option.isSome_map (f := Timer.id), same.ids p, Option.isSome_map]

theorem sameTimers_put {p : Nat} {timer timer' : Timer N} (here : q.timers p = some timer)
    (id : timer'.id = timer.id) (refs : q'.ref = q.ref) (allocated : q'.allocated = q.allocated)
    (timers : q'.timers = Function.update q.timers p (some timer')) : SameTimers q q' := by
  refine ⟨by simp [refs], allocated, fun x => ?_⟩
  rw [timers]
  by_cases same : x = p
  · rw [same, Function.update_self, here, Option.map_some, Option.map_some, id]
  · rw [Function.update_of_ne same]

theorem Collected.same {taken : List Nat} {now : UInt64} (h : Collected q q' taken now) :
    SameTimers q q' := by
  refine ⟨by rw [h.rest]; exact fun _ _ => Iff.rfl, by rw [h.rest], fun p => ?_⟩
  by_cases member : p ∈ taken
  · obtain ⟨timer, here, _, left⟩ := h.due p member
    rw [here, left]
    rfl
  · rw [h.others p member]

/-- Every object is named by its id, and an id names no other object. -/
structure Refs (q : TimerQueue T N) : Prop where
  named : ∀ id p, q.ref.lookup id = some (some p) → p < q.allocated ∧
    ∀ timer, q.timers p = some timer → timer.id = id
  known : ∀ p timer, q.timers p = some timer →
    p < q.allocated ∧ q.ref.lookup timer.id = some (some p)

theorem Refs.congr (h : Refs q) (same : SameTimers q q') : Refs q' := by
  have back {p : Nat} {timer : Timer N} (here : q'.timers p = some timer) :
      ∃ old, q.timers p = some old ∧ old.id = timer.id := by
    have ids := same.ids p
    rw [here, Option.map_some] at ids
    exact Option.map_eq_some_iff.mp ids.symm
  constructor
  · intro id p known
    obtain ⟨young, id_⟩ := h.named id p ((same.refs id p).mp known)
    refine ⟨same.allocated ▸ young, fun timer here => ?_⟩
    obtain ⟨old, there, equal⟩ := back here
    exact equal.symm.trans (id_ old there)
  · intro p timer here
    obtain ⟨old, there, equal⟩ := back here
    obtain ⟨young, known⟩ := h.known p old there
    exact ⟨same.allocated ▸ young, equal ▸ (same.refs _ p).mpr known⟩

theorem Refs.delete (h : Refs q) (p : Nat) : Refs (q.put p none) := by
  have back {x : Nat} {timer : Timer N} (here : (q.put p none).timers x = some timer) :
      q.timers x = some timer := by
    rw [put_timers] at here
    by_cases same : x = p
    · rw [same, Function.update_self] at here
      cases here
    · rwa [Function.update_of_ne same] at here
  refine ⟨fun id x known => ?_, fun x timer here => h.known x timer (back here)⟩
  obtain ⟨young, named⟩ := h.named id x known
  exact ⟨young, fun timer here => named timer (back here)⟩

theorem Refs.created (h : Refs q) {timer : Timer N} (free : q.ref.lookup timer.id = none) :
    Refs (q.created timer) := by
  constructor
  · intro id p known
    rw [created_lookup] at known
    rw [created_timers]
    split at known
    · rename_i same
      cases known
      refine ⟨Nat.lt_succ_self _, fun timer' here => ?_⟩
      rw [if_pos rfl, Option.some.injEq] at here
      rw [← here, same]
    · obtain ⟨young, id_⟩ := h.named id p known
      rw [if_neg (Nat.ne_of_lt young)]
      exact ⟨Nat.lt_succ_of_lt young, id_⟩
  · intro p timer' here
    rw [created_timers] at here
    rw [created_lookup]
    split at here
    · rename_i same
      cases here
      rw [if_pos rfl, same]
      exact ⟨Nat.lt_succ_self _, rfl⟩
    · obtain ⟨young, known⟩ := h.known p timer' here
      refine ⟨Nat.lt_succ_of_lt young, ?_⟩
      rw [if_neg, known]
      intro same
      rw [same, free] at known
      cases known

/-- Every id in the table has no object or one that is not deleted. -/
def RefsAlive (q : TimerQueue T N) : Prop :=
  ∀ id p, q.ref.lookup id = some (some p) → (q.timers p).isSome

theorem RefsAlive.congr (h : RefsAlive q) (same : SameTimers q q') : RefsAlive q' := by
  intro id p known
  rw [same.live]
  exact h id p ((same.refs id p).mp known)

theorem RefsAlive.created (h : RefsAlive q) (timer : Timer N) : RefsAlive (q.created timer) := by
  intro id p known
  rw [created_lookup] at known
  by_cases same : p = q.allocated
  · rw [same]
    rw [created_timers, if_pos rfl]
    rfl
  · split at known
    · cases known
      exact absurd rfl same
    · rw [created_timers, if_neg same]
      exact h id p known

variable [TimerTree T N]

omit [TimerTree T N] in
theorem placed_same {p : Nat} {timer : Timer N} (here : q.timers p = some timer) (tree : T) (n : N)
    (fd : Timerfd) : SameTimers q (q.placed p timer tree n fd) := by
  refine sameTimers_put here ?_ rfl rfl rfl
  rfl

/-- While the table is alive, a cancellation uses no deleted timer. -/
theorem RefsAlive.cancelTimer (h : RefsAlive q) (id : Int) :
    q.cancelTimer id ≠ .error .deletedTimer :=
  cancelTimer_live (h id)

end TimerQueue

namespace TimerLoop

open Transition TimerQueue

variable {T N : Type} [TimerTree T N] {l l' : TimerLoop T N} {op : TimerOp}

/-- The timer that a step deletes: the one with the id that is cancelled, or the one that `PerTick`
visits when its count is used up. -/
def Deletes (l : TimerLoop T N) (p : Nat) : TimerOp → Prop
  | .cancelTimer id => l.queue.ref.lookup id = some (some p)
  | .visit => ∃ rest handling timer, l.pc = .visiting (p :: rest) handling ∧
      l.queue.timers p = some timer ∧ ¬ 0 < timer.elapse
  | .return_ => ∃ rest handling timer, l.pc = .calling p rest handling ∧
      l.queue.timers p = some timer ∧ ¬ 0 < timer.elapse
  | _ => False

/-- What a step does to the `Timer` objects. -/
inductive Objects (l : TimerLoop T N) (op : TimerOp) (q' : TimerQueue T N) : Prop where
  | same (keeps : ∀ p, ¬ Deletes l p op) (same : SameTimers l.queue q')
  | created (keeps : ∀ p, ¬ Deletes l p op) (timer : Timer N)
      (free : l.queue.ref.lookup timer.id = none) (same : SameTimers (l.queue.created timer) q')
  | deleted (p : Nat) (timer : Timer N) (deletes : Deletes l p op)
      (here : l.queue.timers p = some timer) (same : SameTimers (l.queue.put p none) q')

theorem step_objects (steps : Steps l op l') : Objects l op l'.queue := by
  cases step_effect steps with
  | clock now => exact .same (fun _ => not_false) ⟨fun _ _ => Iff.rfl, rfl, fun _ => rfl⟩
  | added _ free _ =>
    refine .created (fun _ => not_false) _ free (placed_same ?_ ..)
    rw [created_timers, if_pos rfl]
  | unknown _ same nothing => exact .same nothing ⟨same, rfl, fun _ => rfl⟩
  | cancelled _ known here _ => exact .deleted _ _ known here ⟨fun _ _ => Iff.rfl, rfl, fun _ => rfl⟩
  | ticked _ run =>
    obtain ⟨_, _, collected⟩ := collect_ok run
    exact .same (fun _ => not_false) collected.same
  | read _ _ run =>
    obtain ⟨_, _, collected⟩ := collect_ok run
    have first : SameTimers l.queue { l.queue with timerfd := .off } :=
      ⟨fun _ _ => Iff.rfl, rfl, fun _ => rfl⟩
    exact .same (fun _ => not_false) (first.trans collected.same)
  | finished pc =>
    refine .same ?_ (.refl _)
    rintro p ⟨_, _, _, pc', _⟩
    rw [pc] at pc'
    cases pc'
  | rearmed pc run =>
    obtain ⟨fd, rfl⟩ := rearm_ok run
    refine .same ?_ ⟨fun _ _ => Iff.rfl, rfl, fun _ => rfl⟩
    rintro p ⟨_, _, _, pc', _⟩
    rw [pc] at pc'
    cases pc'
  | fired pc here more =>
    refine .same ?_ (sameTimers_put here ?_ rfl rfl rfl)
    · rintro x ⟨_, _, timer', pc', here', last⟩
      rw [pc] at pc'
      cases pc'
      rw [here, Option.some.injEq] at here'
      exact last (here' ▸ more)
    · rfl
  | dropped pc here last => exact .deleted _ _ ⟨_, _, _, pc, here, last⟩ here (.refl _)
  | readded pc here more _ =>
    refine .same ?_ (placed_same here ..)
    rintro x ⟨_, _, timer', pc', here', last⟩
    rw [pc] at pc'
    cases pc'
    rw [here, Option.some.injEq] at here'
    exact last (here' ▸ more)
  | ended pc here last => exact .deleted _ _ ⟨_, _, _, pc, here, last⟩ here (.refl _)

omit [TimerTree T N] in
theorem start_refs (tree : T) (clock : UInt64) : Refs (start (N := N) tree clock).queue :=
  ⟨nofun, nofun⟩

theorem refs_step (h : Refs l.queue) (taken : Steps l op l') : Refs l'.queue := by
  cases step_objects taken with
  | same _ same => exact h.congr same
  | created _ timer free same => exact (h.created free).congr same
  | deleted p timer _ _ same => exact (h.delete p).congr same

/-- A step keeps the table alive exactly when it deletes no timer. -/
theorem step_alive_iff (refs : Refs l.queue) (alive : RefsAlive l.queue) (taken : Steps l op l') :
    RefsAlive l'.queue ↔ ∀ p, ¬ Deletes l p op := by
  cases step_objects taken with
  | same keeps same => exact iff_of_true (alive.congr same) keeps
  | created keeps timer free same => exact iff_of_true ((alive.created timer).congr same) keeps
  | deleted p timer deletes here same =>
    refine iff_of_false (fun alive' => ?_) fun keeps => keeps p deletes
    have known := (refs.known p timer here).2
    have live := alive' timer.id p ((same.refs _ _).mpr known)
    rw [same.live, put_timers, Function.update_self] at live
    cases live

structure Named (l : TimerLoop T N) : Prop where
  refs : Refs l.queue
  alive : RefsAlive l.queue

/-- In every run whose steps delete no timer, each id in the table has no object or a live one, so
that no cancellation uses a deleted timer; and the next step keeps it so exactly when it deletes no
timer either. -/
theorem refs_alive_iff (tree : T) (clock : UInt64) (l : TimerLoop T N)
    (run : Reaches Steps (fun l op => ∀ p, ¬ Deletes l p op) (start tree clock) l) :
    RefsAlive l.queue ∧ (∀ id, l.queue.cancelTimer id ≠ .error .deletedTimer) ∧
      ∀ op l', Steps l op l' → (RefsAlive l'.queue ↔ ∀ p, ¬ Deletes l p op) := by
  have named : Named l := run.invariant ⟨start_refs tree clock, nofun⟩ fun _ _ _ h keeps taken =>
    ⟨refs_step h.refs taken, (step_alive_iff h.refs h.alive taken).mpr keeps⟩
  exact ⟨named.alive, named.alive.cancelTimer, fun _ _ taken =>
    step_alive_iff named.refs named.alive taken⟩

/-- A check that a step deletes no timer. -/
def keepsTimers (l : TimerLoop T N) : TimerOp → Bool
  | .cancelTimer id => (l.queue.ref.lookup id).join.isNone
  | .visit =>
    match l.pc with
    | .visiting (p :: _) _ => (l.queue.timers p).all fun timer => 0 < timer.elapse
    | _ => true
  | .return_ =>
    match l.pc with
    | .calling p _ _ => (l.queue.timers p).all fun timer => 0 < timer.elapse
    | _ => true
  | _ => true

omit [TimerTree T N] in
theorem keepsTimers_sound (l : TimerLoop T N) (op : TimerOp) (keeps : keepsTimers l op = true) (p : Nat) :
    ¬ Deletes l p op := by
  cases op with
  | cancelTimer id =>
    intro known
    rw [Deletes] at known
    simp [keepsTimers, known] at keeps
  | visit =>
    rintro ⟨rest, handling, timer, pc, here, last⟩
    simp only [keepsTimers, pc, here, Option.all_some] at keeps
    exact last (of_decide_eq_true keeps)
  | return_ =>
    rintro ⟨rest, handling, timer, pc, here, last⟩
    simp only [keepsTimers, pc, here, Option.all_some] at keeps
    exact last (of_decide_eq_true keeps)
  | clock => exact not_false
  | addTimer => exact not_false
  | perTick => exact not_false
  | handleRead => exact not_false

/-- A timer that fires once of two times and is armed again, and the cancellation of an id that no timer
has. Its own cancellation then leaves its id with a deleted object. -/
theorem refs_alive_iff_rearmed : ∃ l l' : TimerLoop (Rbtree Nat) Ptr,
    [.addTimer 10 2 7, .clock 1011, .perTick, .visit, .return_, .visit, .cancelTimer 99].foldlM next
      (start (Rbtree.create 0) 1000) = some l ∧ l.history = [.added 0, .fired 0] ∧
    RefsAlive l.queue ∧ l.queue.cancelTimer 1 ≠ .error .deletedTimer ∧
    Steps l (.cancelTimer 1) l' ∧ ¬ RefsAlive l'.queue := by
  have made : ([.addTimer 10 2 7, .clock 1011, .perTick, .visit, .return_, .visit,
      .cancelTimer 99].foldlM (fun l op => if keepsTimers l op then next l op else none)
        (start (Rbtree.create 0) 1000)).any fun l => l.history = [.added 0, .fired 0] ∧
          l.queue.ref.lookup 1 = some (some 0) ∧ (next l (.cancelTimer 1)).isSome := by
    decide +kernel
  obtain ⟨l, run, test⟩ := (Option.any_eq_true _ _).mp made
  obtain ⟨history, known, test⟩ := of_decide_eq_true test
  obtain ⟨l', cancels⟩ := Option.isSome_iff_exists.mp test
  obtain ⟨alive, safe, keeps⟩ := refs_alive_iff (Rbtree.create 0) 1000 l
    (.of_checked next keepsTimers keepsTimers_sound _ run)
  exact ⟨l, l', foldlM_of_checked next keepsTimers _ run, history, alive, safe 1, cancels,
    fun left => (keeps _ l' cancels).mp left 0 known⟩

/-- When a cancellation uses a deleted timer, the table still has the object under the id. -/
theorem not_alive_of_uses {l : TimerLoop (Rbtree Nat) Ptr} {id : Int}
    (stops : l.step (.cancelTimer id) = some (.error .deletedTimer)) : ¬ RefsAlive l.queue := by
  intro alive
  have safe := alive.cancelTimer id
  simp only [step] at stops
  split at stops
  · have goes : l.callCancelTimer id ≠ .error .deletedTimer :=
      bind_ne_error (bind_ne_error safe fun _ _ => ok_ne_error) fun _ _ => ok_ne_error
    exact goes (Option.some.inj stops)
  · cases stops

/-- After its last firing, and after a cancellation, the id of a timer still has the object, and
another cancellation uses it. -/
theorem refs_outlive_timers :
    (∃ l : TimerLoop (Rbtree Nat) Ptr, [.addTimer 10 1 7, .clock 1011, .perTick, .visit, .return_,
        .visit].foldlM next (start (Rbtree.create 0) 1000) = some l ∧
      l.step (.cancelTimer 1) = some (.error .deletedTimer) ∧ ¬ RefsAlive l.queue) ∧
    ∃ l : TimerLoop (Rbtree Nat) Ptr, [.addTimer 10 1 7, .cancelTimer 1].foldlM next
        (start (Rbtree.create 0) 1000) = some l ∧
      l.step (.cancelTimer 1) = some (.error .deletedTimer) ∧ ¬ RefsAlive l.queue := by
  have fired : ([.addTimer 10 1 7, .clock 1011, .perTick, .visit, .return_, .visit].foldlM next
      (start (Rbtree.create 0) 1000)).any (fun l => l.usesDeleted (.cancelTimer 1)) := by
    decide +kernel
  have cancelled : ([.addTimer 10 1 7, .cancelTimer 1].foldlM next (start (Rbtree.create 0) 1000)).any
      (fun l => l.usesDeleted (.cancelTimer 1)) := by
    decide +kernel
  constructor
  · obtain ⟨l, run, uses⟩ := (Option.any_eq_true _ _).mp fired
    have stops := usesDeleted_iff.mp uses
    exact ⟨l, run, stops, not_alive_of_uses stops⟩
  · obtain ⟨l, run, uses⟩ := (Option.any_eq_true _ _).mp cancelled
    have stops := usesDeleted_iff.mp uses
    exact ⟨l, run, stops, not_alive_of_uses stops⟩

end TimerLoop

end Yamq
