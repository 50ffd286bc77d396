import Yamq.Rpc.EventDispatcher

/-! What the functors that have run, and the handlers between them, have made of the world. -/
namespace Yamq.EventDispatcher

variable {F W : Type} {exec : F → W → W} {d d' : EventDispatcher F W}

/-- The functors that the calls of a run have queued. The ticket of a call is its number. -/
def pushed (labels : List (Act F)) : List F :=
  labels.filterMap fun
    | .runInEvd _ cb => some cb
    | .syncRunInEvd _ cb => some cb
    | _ => none

def handled (labels : List (Act F)) : List F :=
  labels.filterMap fun
    | .handler cb => some cb
    | _ => none

/-- The functors of the queue have run in the order of `ran`, each as its call has queued it, and the
handlers of the run between them; and the world is what they have made of it. -/
structure Effects (exec : F → W → W) (labels : List (Act F)) (world : W) (d : EventDispatcher F W)
    (effects : List (Option Nat × F)) : Prop where
  world : d.world = effects.foldl (fun w x => exec x.2 w) world
  ran : effects.filterMap Prod.fst = d.ran
  queued : ∀ t cb, (some t, cb) ∈ effects → (pushed labels)[t]? = some cb
  handlers : (effects.filter fun x => x.1 = none).map Prod.snd = handled labels

/-- A run from one dispatcher to another, and what it has done to the world. -/
def Executed (exec : F → W → W) (start d : EventDispatcher F W) : Prop :=
  ∃ labels effects, Transition.Runs (Steps exec) Transition.Free start labels d ∧
    Effects exec labels start.world d effects

/-- What a step does to the world, the queue and the functors that have run. -/
inductive Moves (exec : F → W → W) (d : EventDispatcher F W) (a : Act F) (d' : EventDispatcher F W) :
    Prop where
  | still (pushes : pushed [a] = []) (handles : handled [a] = []) (world : d'.world = d.world)
      (ran : d'.ran = d.ran) (waiting : d'.batch ++ d'.pending = d.batch ++ d.pending)
      (next : d'.nextTicket = d.nextTicket)
  | pushes (cb : F) (pushes : pushed [a] = [cb]) (handles : handled [a] = []) (world : d'.world = d.world)
      (ran : d'.ran = d.ran)
      (waiting : d'.batch ++ d'.pending = d.batch ++ d.pending ++ [⟨d.nextTicket, cb⟩])
      (next : d'.nextTicket = d.nextTicket + 1)
  | runs (q : Queued F) (pushes : pushed [a] = []) (handles : handled [a] = [])
      (world : d'.world = exec q.functor d.world) (ran : d'.ran = d.ran ++ [q.ticket])
      (waiting : d.batch ++ d.pending = q :: (d'.batch ++ d'.pending)) (next : d'.nextTicket = d.nextTicket)
  | handles (cb : F) (pushes : pushed [a] = []) (handles : handled [a] = [cb])
      (world : d'.world = exec cb d.world) (ran : d'.ran = d.ran)
      (waiting : d'.batch ++ d'.pending = d.batch ++ d.pending) (next : d'.nextTicket = d.nextTicket)

theorem caller_moves {i : Nat} (taken : d.callerStep i = some d') : Moves exec d (.caller i) d' := by
  have still (world : d'.world = d.world) (ran : d'.ran = d.ran)
      (waiting : d'.batch ++ d'.pending = d.batch ++ d.pending)
      (next : d'.nextTicket = d.nextTicket) : Moves exec d (.caller i) d' :=
    .still rfl rfl world ran waiting next
  have woken : d.wakeup.world = d.world ∧ d.wakeup.ran = d.ran ∧
      d.wakeup.batch ++ d.wakeup.pending = d.batch ++ d.pending ∧ d.wakeup.nextTicket = d.nextTicket := by
    unfold wakeup
    split <;> exact ⟨rfl, rfl, rfl, rfl⟩
  obtain ⟨world, ran, waiting, next⟩ := woken
  unfold EventDispatcher.callerStep at taken
  split at taken
  · cases taken
  · cases taken; exact still rfl rfl rfl rfl
  · split at taken <;> cases taken <;> exact still rfl rfl rfl rfl
  · cases taken; exact still world ran waiting next
  · split at taken <;> cases taken <;> exact still rfl rfl rfl rfl
  · cases taken; exact still world ran waiting next

theorem loop_moves (taken : d.loopStep exec = some d') : Moves exec d .loop d' := by
  have still (world : d'.world = d.world) (ran : d'.ran = d.ran)
      (waiting : d'.batch ++ d'.pending = d.batch ++ d.pending)
      (next : d'.nextTicket = d.nextTicket) : Moves exec d .loop d' :=
    .still rfl rfl world ran waiting next
  unfold EventDispatcher.loopStep at taken
  split at taken
  · rename_i pc
    cases taken; exact still rfl rfl (by simp [batch, pc]) rfl
  · rename_i pc
    cases taken; exact still rfl rfl (by simp [batch, pc]) rfl
  · rename_i pc
    cases taken; exact still rfl rfl (by simp [batch, pc]) rfl
  · rename_i pc
    cases taken; exact still rfl rfl (by simp [batch, pc]) rfl
  · rename_i q rest pc
    cases taken
    exact .runs q rfl rfl rfl rfl (by simp [batch, pc]) rfl
  · rename_i pc
    cases taken; exact still rfl rfl (by simp [batch, pc]) rfl
  · rename_i pc
    cases taken
    refine still rfl rfl ?_ rfl
    cases d.stop <;> simp [batch, pc]
  · cases taken

theorem step_moves {a : Act F} (taken : Steps exec d a d') : Moves exec d a d' := by
  have push (i : Nat) (sync : Bool) (cb : F) : (d.push i sync cb).batch ++ (d.push i sync cb).pending =
      d.batch ++ d.pending ++ [⟨d.nextTicket, cb⟩] := by
    rw [List.append_assoc]
    rfl
  unfold Steps EventDispatcher.step at taken
  split at taken
  · rename_i i cb
    split at taken <;> cases taken
    exact .pushes cb rfl rfl rfl rfl (push i false cb) rfl
  · rename_i i cb
    split at taken <;> cases taken
    exact .pushes cb rfl rfl rfl rfl (push i true cb) rfl
  · split at taken <;> cases taken
    exact .still rfl rfl rfl rfl rfl rfl
  · exact caller_moves taken
  · rename_i cb
    split at taken <;> cases taken
    rename_i pc
    exact .handles cb rfl rfl rfl rfl (by simp [batch, pc]) rfl
  · split at taken
    · rename_i pc
      split at taken <;> cases taken
      exact .still rfl rfl rfl rfl (by simp [batch, pc]) rfl
    · cases taken
  · exact loop_moves taken

/-- What a run keeps, with the functors that still wait. -/
structure Accounted (exec : F → W → W) (labels : List (Act F)) (world : W) (d : EventDispatcher F W)
    (effects : List (Option Nat × F)) : Prop extends Effects exec labels world d effects where
  waiting : ∀ q ∈ d.batch ++ d.pending, (pushed labels)[q.ticket]? = some q.functor
  count : (pushed labels).length = d.nextTicket

theorem Accounted.step {labels : List (Act F)} {world : W} {effects : List (Option Nat × F)} {a : Act F}
    (h : Accounted exec labels world d effects) (taken : Steps exec d a d') :
    ∃ effects', Accounted exec (labels ++ [a]) world d' effects' := by
  have pushedAll : pushed (labels ++ [a]) = pushed labels ++ pushed [a] := List.filterMap_append ..
  have handledAll : handled (labels ++ [a]) = handled labels ++ handled [a] := List.filterMap_append ..
  have grown {t : Nat} {cb : F} (known : (pushed labels)[t]? = some cb) :
      (pushed (labels ++ [a]))[t]? = some cb := by
    obtain ⟨small, _⟩ := List.getElem?_eq_some_iff.mp known
    rw [pushedAll, List.getElem?_append_left small]
    exact known
  have queued : ∀ t cb, (some t, cb) ∈ effects → (pushed (labels ++ [a]))[t]? = some cb :=
    fun t cb member => grown (h.queued t cb member)
  cases step_moves taken with
  | still pushes handles world ran waiting next =>
    refine ⟨effects, ⟨world ▸ h.world, ran ▸ h.ran, queued, ?_⟩, fun q member => ?_, ?_⟩
    · rw [handledAll, handles, List.append_nil]
      exact h.handlers
    · exact grown (h.waiting q (waiting ▸ member))
    · rw [pushedAll, pushes, List.append_nil, next]
      exact h.count
  | pushes cb pushes handles world ran waiting next =>
    refine ⟨effects, ⟨world ▸ h.world, ran ▸ h.ran, queued, ?_⟩, fun q member => ?_, ?_⟩
    · rw [handledAll, handles, List.append_nil]
      exact h.handlers
    · rw [waiting] at member
      rcases List.mem_append.mp member with old | new
      · exact grown (h.waiting q old)
      · cases List.mem_singleton.mp new
        rw [pushedAll, pushes, ← h.count, List.getElem?_append_right (Nat.le_refl _), Nat.sub_self]
        rfl
    · rw [pushedAll, pushes, List.length_append, List.length_singleton, next, h.count]
  | runs q pushes handles world ran waiting next =>
    have first := h.waiting q (waiting ▸ List.mem_cons_self)
    refine ⟨effects ++ [(some q.ticket, q.functor)], ⟨?_, ?_, fun t cb member => ?_, ?_⟩,
      fun q' member => ?_, ?_⟩
    · rw [List.foldl_append, ← h.world, world]
      rfl
    · rw [List.filterMap_append, h.ran, ran]
      rfl
    · rcases List.mem_append.mp member with old | new
      · exact queued t cb old
      · cases List.mem_singleton.mp new
        exact grown first
    · rw [List.filter_append, List.map_append, h.handlers, handledAll, handles]
      rfl
    · exact grown (h.waiting q' (waiting ▸ List.mem_cons_of_mem _ member))
    · rw [pushedAll, pushes, List.append_nil, next]
      exact h.count
  | handles cb pushes handles world ran waiting next =>
    refine ⟨effects ++ [(none, cb)], ⟨?_, ?_, fun t cb' member => ?_, ?_⟩, fun q member => ?_, ?_⟩
    · rw [List.foldl_append, ← h.world, world]
      rfl
    · rw [List.filterMap_append, h.ran, ran]
      exact List.append_nil _
    · rcases List.mem_append.mp member with old | new
      · exact queued t cb' old
      · cases List.mem_singleton.mp new
    · rw [List.filter_append, List.map_append, h.handlers, handledAll, handles]
      rfl
    · exact grown (h.waiting q (waiting ▸ member))
    · rw [pushedAll, pushes, List.append_nil, next]
      exact h.count

theorem executed_of_reaches {wakeupFd eventfd : Int} {world : W}
    (run : Transition.Reaches (Steps exec) Transition.Free (new wakeupFd eventfd world) d) :
    Executed exec (new wakeupFd eventfd world) d := by
  obtain ⟨labels, runs⟩ := run.runs
  have accounted : ∃ effects, Accounted exec labels world d effects := by
    clear run
    induction runs with
    | start => exact ⟨[], ⟨rfl, rfl, nofun, rfl⟩, nofun, rfl⟩
    | step _ _ taken ih =>
      obtain ⟨effects, h⟩ := ih
      exact h.step taken
  obtain ⟨effects, h⟩ := accounted
  exact ⟨labels, effects, runs, h.toEffects⟩

end Yamq.EventDispatcher
