import Yamq.Base.RbTreeContents
import Yamq.Timer.TimerEffects

/-! `PerTick` under callbacks that add and cancel timers. -/
namespace Yamq

namespace TimerQueue

open TimerTree

/-- The timers in the tree are live and stand in one node each. -/
def Stored (q : TimerQueue (Rbtree Nat) Ptr) : Prop :=
  ∃ nodes, q.tree.Nodes nodes ∧ (nodes.map fun x => x.2.val).Nodup ∧
    ∀ x ∈ nodes, (q.timers x.2.val).isSome

section
variable {q : TimerQueue (Rbtree Nat) Ptr} {now : UInt64} {fuel : Nat} {expired : List Nat}

theorem collect_nil (h : q.tree.Nodes []) : collect now (fuel + 1) q expired = .ok (q, expired) := by
  have least : minNode q.tree = .ok q.tree.nil := h.min_nil
  have none : isNil q.tree q.tree.nil = true := decide_eq_true rfl
  simp only [collect, least, lift, ok_bind, none, if_true, pure_ok]

theorem collect_cons {i : Nat} {e : Entry Nat} {rest : List (Nat × Entry Nat)} {timer : Timer Ptr}
    (h : q.tree.Nodes ((i, e) :: rest)) (here : q.timers e.val = some timer) :
    collect now (fuel + 1) q expired = if timer.expire < now then do
        let tree ← lift (q.tree.delete (.at i))
        collect now fuel ({ q with tree }.put e.val (some { timer with attach := none }))
          (expired ++ [e.val])
      else .ok (q, expired) := by
  have least : minNode q.tree = .ok (Ptr.at i) := h.min_cons
  have some_ : isNil q.tree (Ptr.at i) = false := decide_eq_false (h.not_nil List.mem_cons_self)
  obtain ⟨n, read, same⟩ := h.get (i := i) (e := e) List.mem_cons_self
  have entry : entryOf q.tree (Ptr.at i) = .ok e := by
    change (q.tree.get (.at i) >>= fun n => pure n.entry) = _
    rw [read, ok_bind, same, pure_ok]
  have found := get_of_some here
  simp only [collect, least, lift, ok_bind, some_, Bool.false_eq_true, if_false, entry, found, pure_ok]
  rfl

end

/-- The first loop of `PerTick` takes the timers of the tree in their order. -/
theorem collect_nodes {now : UInt64} {fuel : Nat} {q : TimerQueue (Rbtree Nat) Ptr}
    {nodes : List (Nat × Entry Nat)} {expired : List Nat} (h : q.tree.Nodes nodes)
    (live : ∀ x ∈ nodes, (q.timers x.2.val).isSome) :
    collect now fuel q expired ≠ .error .deletedTimer ∧
      ∀ q' batch, collect now fuel q expired = .ok (q', batch) →
        ∃ front back, nodes = front ++ back ∧ batch = expired ++ front.map fun x => x.2.val := by
  induction fuel generalizing q nodes expired with
  | zero => exact ⟨nofun, nofun⟩
  | succ fuel ih =>
    have stops : (.ok (q, expired) : Except Halt (TimerQueue (Rbtree Nat) Ptr × List Nat)) ≠
        .error .deletedTimer ∧ ∀ q' batch,
        (.ok (q, expired) : Except Halt (TimerQueue (Rbtree Nat) Ptr × List Nat)) = .ok (q', batch) →
        ∃ front back, nodes = front ++ back ∧ batch = expired ++ front.map fun x => x.2.val := by
      refine ⟨nofun, ?_⟩
      rintro _ _ same
      cases same
      exact ⟨[], nodes, rfl, (List.append_nil _).symm⟩
    cases nodes with
    | nil =>
      rw [collect_nil h]
      exact stops
    | cons x rest =>
      obtain ⟨i, e⟩ := x
      obtain ⟨timer, here⟩ := Option.isSome_iff_exists.mp (live (i, e) List.mem_cons_self)
      rw [collect_cons h here]
      split
      · rcases h.delete_least with fails | ⟨tree, deleted, left, _⟩
        · rw [fails]
          exact ⟨nofun, nofun⟩
        · rw [deleted, lift, ok_bind]
          have alive : ∀ x ∈ rest, (({ q with tree }.put e.val (some { timer with attach := none })
              ).timers x.2.val).isSome := fun x member =>
            live_put (live x (List.mem_cons_of_mem _ member))
          obtain ⟨safe, takes⟩ := ih left alive
          refine ⟨safe, fun q' batch run => ?_⟩
          obtain ⟨front, back, rfl, rfl⟩ := takes q' batch run
          exact ⟨(i, e) :: front, back, rfl, by simp⟩
      · exact stops

end TimerQueue

namespace TimerLoop

open Transition TimerQueue

/-- No timer fires after its cancellation. -/
def Respects (events : List TimerEvent) : Prop :=
  events.Pairwise fun e e' => ∀ p, e = .cancelled p → e' ≠ .fired p

section
variable {T N : Type} {l l' : TimerLoop T N} {op : TimerOp} {n : Nat}

/-- A callback cancels only ids without a timer, and live timers that the tick does not still hold. -/
def Careful (l : TimerLoop T N) : TimerOp → Prop
  | .cancelTimer id => ∀ p, l.queue.ref.lookup id = some (some p) →
      (l.queue.timers p).isSome ∧ p ∉ l.pc.batch
  | _ => True

/-- A step while `PerTick` still has timers before it. -/
def Ticks (l : TimerLoop T N) (op : TimerOp) : Prop := l.pc.batch ≠ [] ∧ Careful l op

/-- What `PerTick` keeps while it visits its timers: they are live and different, and none of them
was cancelled since its start, when the history had `n` events. -/
structure Ticking (n : Nat) (l : TimerLoop T N) : Prop where
  begun : n ≤ l.history.length
  distinct : l.pc.batch.Nodup
  live : ∀ p ∈ l.pc.batch, (l.queue.timers p).isSome
  gone : ∀ p, .cancelled p ∈ l.history.drop n → p ∉ l.pc.batch
  respects : Respects (l.history.drop n)

theorem Ticking.congr (h : Ticking n l) {q : TimerQueue T N} {pc : TickPc} {events : List TimerEvent}
    (batch : ∀ p ∈ pc.batch, p ∈ l.pc.batch) (distinct : pc.batch.Nodup)
    (live : ∀ p ∈ pc.batch, (q.timers p).isSome)
    (cancels : ∀ p, .cancelled p ∈ events → p ∉ pc.batch)
    (fires : ∀ p, .fired p ∈ events → p ∈ l.pc.batch) (few : events.length ≤ 1) :
    Ticking n ⟨q, pc, l.history ++ events⟩ := by
  have dropped : (l.history ++ events).drop n = l.history.drop n ++ events :=
    List.drop_append_of_le_length h.begun
  constructor
  · rw [List.length_append]
    exact Nat.le_add_right_of_le h.begun
  · exact distinct
  · exact live
  · intro p member
    rw [dropped, List.mem_append] at member
    rcases member with early | late
    · exact fun inside => h.gone p early (batch p inside)
    · exact cancels p late
  · rw [dropped, Respects, List.pairwise_append]
    refine ⟨h.respects, ?_, ?_⟩
    · match events, few with
      | [], _ => exact .nil
      | [e], _ => exact List.pairwise_singleton ..
    · rintro _ early e late p rfl rfl
      exact h.gone p early (fires p late)

variable [TimerTree T N]

theorem Ticking.step (h : Ticking n l) (ticks : Ticks l op) (steps : Steps l op l') :
    Ticking n l' := by
  obtain ⟨more, careful⟩ := ticks
  have same (q : TimerQueue T N) (events : List TimerEvent)
      (live : ∀ p ∈ l.pc.batch, (q.timers p).isSome)
      (cancels : ∀ p, .cancelled p ∈ events → p ∉ l.pc.batch) (fires : ∀ p, .fired p ∉ events)
      (few : events.length ≤ 1) : Ticking n ⟨q, l.pc, l.history ++ events⟩ :=
    h.congr (fun _ member => member) h.distinct live cancels (fun p member => absurd member (fires p)) few
  have left (q : TimerQueue T N) (pc : TickPc) (batch : ∀ p ∈ pc.batch, p ∈ l.pc.batch)
      (distinct : pc.batch.Nodup) (live : ∀ p ∈ pc.batch, (q.timers p).isSome) :
      Ticking n ⟨q, pc, l.history⟩ := by
    have whole : Ticking n ⟨q, pc, l.history ++ []⟩ :=
      h.congr batch distinct live nofun nofun (Nat.zero_le 1)
    rwa [List.append_nil] at whole
  have gone {p : Nat} {rest : List Nat} (handling : Bool) (batch : l.pc.batch = p :: rest) :
      Ticking n ⟨l.queue.put p none, .visiting rest handling, l.history⟩ := by
    have distinct := h.distinct
    rw [batch, List.nodup_cons] at distinct
    have inside (x : Nat) (member : x ∈ rest) : x ∈ l.pc.batch := by
      rw [batch]
      exact List.mem_cons_of_mem p member
    refine left _ _ inside distinct.2 fun x member => ?_
    have other : x ≠ p := fun equal => distinct.1 (equal ▸ member)
    rw [put_timers, Function.update_of_ne other]
    exact h.live x (inside x member)
  cases step_effect steps with
  | clock now => exact left _ l.pc (fun _ member => member) h.distinct h.live
  | added calls free inserted =>
    refine same _ _ (fun p member => live_put ?_) ?_ ?_ (Nat.le_refl 1)
    · exact live_put (h.live p member)
    · simp
    · simp
  | unknown calls same nothing => exact left _ l.pc (fun _ member => member) h.distinct h.live
  | @cancelled id p timer tree calls known here deleted =>
    have outside := (careful p known).2
    refine same _ _ (fun x member => ?_) ?_ ?_ (Nat.le_refl 1)
    · have other : x ≠ p := fun equal => outside (equal ▸ member)
      rw [put_timers, Function.update_of_ne other]
      exact h.live x member
    · rintro x member
      rw [List.mem_singleton, TimerEvent.cancelled.injEq] at member
      rwa [member]
    · simp
  | ticked idle _ => exact absurd (by rw [idle]; rfl) more
  | read idle _ _ => exact absurd (by rw [idle]; rfl) more
  | finished pc => exact absurd (by rw [pc]; rfl) more
  | rearmed pc _ => exact absurd (by rw [pc]; rfl) more
  | @fired p rest handling timer pc here positive =>
    have batch : l.pc.batch = p :: rest := by rw [pc]; rfl
    have distinct := h.distinct
    rw [batch] at distinct
    refine h.congr (fun x member => batch ▸ member) distinct (fun x member => ?_) (by simp) ?_
      (Nat.le_refl 1)
    · exact live_put (h.live x (batch ▸ member))
    · rintro x member
      rw [List.mem_singleton, TimerEvent.fired.injEq] at member
      rw [member, batch]
      exact List.mem_cons_self
  | @dropped p rest handling timer pc here last => exact gone handling (by rw [pc]; rfl)
  | @readded p rest handling timer tree _ fd pc here positive inserted =>
    have batch : l.pc.batch = p :: rest := by rw [pc]; rfl
    have distinct := h.distinct
    rw [batch, List.nodup_cons] at distinct
    refine left _ _ (fun x member => ?_) distinct.2 fun x member => ?_
    · rw [batch]
      exact List.mem_cons_of_mem p member
    · exact live_put (h.live x (batch ▸ List.mem_cons_of_mem p member))
  | @ended p rest handling timer pc here last => exact gone handling (by rw [pc]; rfl)

/-- While the timers of the tick are live, no step of it uses a deleted one. -/
theorem Ticking.safe (h : Ticking n l) (ticks : Ticks l op) :
    l.step op ≠ some (.error .deletedTimer) := by
  obtain ⟨more, careful⟩ := ticks
  have inner {α : Type} {x : Except Halt α} (safe : x ≠ .error .deletedTimer) {f : α → TimerLoop T N} :
      some (x >>= fun a => pure (f a)) ≠ some (.error .deletedTimer) := by
    rw [ne_eq, Option.some.injEq]
    exact bind_ne_error safe fun _ _ => ok_ne_error
  cases op with
  | clock => simp [TimerLoop.step]
  | addTimer time interval cb =>
    simp only [TimerLoop.step]
    split
    · exact inner (callAddTimer_live time interval cb)
    · simp
  | cancelTimer id =>
    simp only [TimerLoop.step]
    split
    · have safe : l.queue.callCancelTimer id ≠ .error .deletedTimer :=
        bind_ne_error (cancelTimer_live fun p known => (careful p known).1) fun _ _ => ok_ne_error
      exact inner safe
    · simp
  | perTick =>
    simp only [TimerLoop.step]
    split
    · rename_i idle
      exact absurd (by rw [idle]; rfl) more
    · simp
  | handleRead =>
    simp only [TimerLoop.step]
    split
    · rename_i idle
      exact absurd (by rw [idle]; rfl) more
    · simp
  | visit =>
    obtain ⟨q, pc, history⟩ := l
    cases pc with
    | idle => simp [TimerLoop.step]
    | calling => simp [TimerLoop.step]
    | visiting rest handling =>
      cases rest with
      | nil => exact absurd rfl more
      | cons p rest =>
        obtain ⟨timer, here⟩ := Option.isSome_iff_exists.mp (h.live p List.mem_cons_self)
        have found : q.get p = .ok timer := get_of_some here
        simp only [TimerLoop.step, visitTimer, found, ok_bind]
        split <;> simp
  | return_ =>
    obtain ⟨q, pc, history⟩ := l
    cases pc with
    | idle => simp [TimerLoop.step]
    | visiting => simp [TimerLoop.step]
    | calling p rest handling =>
      have live := h.live p List.mem_cons_self
      obtain ⟨timer, here⟩ := Option.isSome_iff_exists.mp live
      have found : q.get p = .ok timer := get_of_some here
      simp only [TimerLoop.step, returnTo, found, ok_bind]
      split
      · exact inner (addTimer_live live)
      · simp

end

/-- The start of a tick uses no deleted timer, and takes live and different ones. -/
theorem tick_begins {l : TimerLoop (Rbtree Nat) Ptr} (stored : Stored l.queue) (idle : l.pc = .idle)
    {op : TimerOp} (starts : op = .perTick ∨ op = .handleRead) :
    l.step op ≠ some (.error .deletedTimer) ∧ ∀ l', Steps l op l' → Ticking l.history.length l' := by
  obtain ⟨nodes, h, distinct, live⟩ := stored
  have begins {q q' : TimerQueue (Rbtree Nat) Ptr} {batch : List Nat} (handling : Bool)
      (h : q.tree.Nodes nodes) (live : ∀ x ∈ nodes, (q.timers x.2.val).isSome)
      (run : q.expiredTimers = .ok (q', batch)) :
      Ticking l.history.length ⟨q', .visiting batch handling, l.history⟩ := by
    obtain ⟨taken, rfl, collected⟩ := collect_ok run
    obtain ⟨front, back, rfl, same⟩ := (collect_nodes h live).2 q' _ run
    rw [List.nil_append] at same
    refine ⟨Nat.le_refl _, ?_, ?_, ?_, ?_⟩
    · rw [List.map_append, List.nodup_append] at distinct
      rw [TickPc.batch, same]
      exact distinct.1
    · intro p member
      obtain ⟨timer, _, _, left⟩ := collected.due p member
      exact Option.isSome_iff_exists.mpr ⟨_, left⟩
    · simp
    · simp [Respects]
  have inner {x : Except Halt (TimerQueue (Rbtree Nat) Ptr × List Nat)} {handling : Bool}
      (safe : x ≠ .error .deletedTimer) : (x >>= fun r => pure { l with
        queue := r.1, pc := .visiting r.2 handling }) ≠ .error .deletedTimer :=
    bind_ne_error safe fun _ _ => ok_ne_error
  rcases starts with rfl | rfl
  · constructor
    · simp only [step, if_pos idle, ne_eq, Option.some.injEq]
      exact inner (collect_nodes h live).1
    · intro l' steps
      cases step_effect steps with
      | ticked _ run => exact begins false h live run
  · constructor
    · simp only [step, if_pos idle, ne_eq, Option.some.injEq]
      refine bind_ne_error ?_ fun q read => ?_
      · unfold readTimerfd
        split <;> simp
      · unfold readTimerfd at read
        split at read
        · cases read
          have safe : { l.queue with timerfd := .off }.expiredTimers ≠ .error .deletedTimer :=
            (collect_nodes (q := { l.queue with timerfd := .off }) h live).1
          exact inner safe
        · cases read
    · intro l' steps
      cases step_effect steps with
      | read _ _ run => exact begins (q := { l.queue with timerfd := .off }) true h live run

/-- `PerTick` under every behaviour of the callbacks. When the tree has live and different timers and
each callback cancels only ids without a timer and live timers that the tick does not still hold, then
no step of the tick uses or deletes a deleted timer, and none fires after it was cancelled. -/
theorem tick_safe (l l' l'' : TimerLoop (Rbtree Nat) Ptr) (op : TimerOp)
    (starts : op = .perTick ∨ op = .handleRead) (idle : l.pc = .idle) (stored : Stored l.queue)
    (first : Steps l op l') (run : Reaches Steps Ticks l' l'') :
    l.step op ≠ some (.error .deletedTimer) ∧
      (∀ op', Ticks l'' op' → l''.step op' ≠ some (.error .deletedTimer)) ∧
      Respects (l''.history.drop l.history.length) := by
  obtain ⟨safe, begins⟩ := tick_begins stored idle starts
  have ticking : Ticking l.history.length l'' := run.invariant (begins l' first)
    fun _ _ _ h ticks taken => h.step ticks taken
  exact ⟨safe, fun _ ticks => ticking.safe ticks, ticking.respects⟩

section
variable {T N : Type} [TimerTree T N] {l l' : TimerLoop T N} {op : TimerOp} {p : Nat}

/-- The tick still holds a timer that is deleted. -/
structure Doomed (p : Nat) (l : TimerLoop T N) : Prop where
  held : p ∈ l.pc.batch
  deleted : l.queue.timers p = none
  young : p < l.queue.allocated

theorem Doomed.step (h : Doomed p l) (steps : Steps l op l') : Doomed p l' := by
  have other {x : Nat} {timer : Timer N} (here : l.queue.timers x = some timer) : p ≠ x := by
    rintro rfl
    rw [h.deleted] at here
    cases here
  have rest {x : Nat} {rest : List Nat} {timer : Timer N} (batch : l.pc.batch = x :: rest)
      (here : l.queue.timers x = some timer) : p ∈ rest := by
    have held := h.held
    rw [batch, List.mem_cons] at held
    exact held.resolve_left (other here)
  cases step_effect steps with
  | clock now => exact ⟨h.held, h.deleted, h.young⟩
  | added =>
    refine ⟨h.held, ?_, Nat.lt_succ_of_lt h.young⟩
    have old := Nat.ne_of_lt h.young
    rw [placed_timers, Function.update_of_ne old, created_timers, if_neg old]
    exact h.deleted
  | unknown => exact ⟨h.held, h.deleted, h.young⟩
  | cancelled _ _ here =>
    refine ⟨h.held, ?_, h.young⟩
    rw [put_timers, Function.update_of_ne (other here)]
    exact h.deleted
  | ticked idle => exact absurd h.held (by rw [idle]; exact List.not_mem_nil)
  | read idle => exact absurd h.held (by rw [idle]; exact List.not_mem_nil)
  | finished pc => exact absurd h.held (by rw [pc]; exact List.not_mem_nil)
  | rearmed pc => exact absurd h.held (by rw [pc]; exact List.not_mem_nil)
  | fired pc here =>
    have held := h.held
    rw [pc] at held
    refine ⟨held, ?_, h.young⟩
    rw [put_timers, Function.update_of_ne (other here)]
    exact h.deleted
  | dropped pc here =>
    refine ⟨rest (by rw [pc]; rfl) here, ?_, h.young⟩
    rw [put_timers, Function.update_of_ne (other here)]
    exact h.deleted
  | readded pc here =>
    refine ⟨rest (by rw [pc]; rfl) here, ?_, h.young⟩
    rw [placed_timers, Function.update_of_ne (other here)]
    exact h.deleted
  | ended pc here =>
    refine ⟨rest (by rw [pc]; rfl) here, ?_, h.young⟩
    rw [put_timers, Function.update_of_ne (other here)]
    exact h.deleted

/-- Once a callback has cancelled a timer that the tick still holds, the tick does not end any more
without using it. -/
theorem careless_dooms {id : Int} (known : l.queue.ref.lookup id = some (some p))
    (held : p ∈ l.pc.batch) (young : p < l.queue.allocated) (steps : Steps l (.cancelTimer id) l')
    {l'' : TimerLoop T N} (run : Reaches Steps Free l' l'') : l''.pc.batch ≠ [] := by
  have first : Doomed p l' := by
    cases step_effect steps with
    | unknown _ _ nothing => exact absurd known (nothing p)
    | cancelled _ known' =>
      rw [known, Option.some.injEq, Option.some.injEq] at known'
      subst known'
      exact ⟨held, Function.update_self .., young⟩
  have doomed : Doomed p l'' := run.invariant first fun _ _ _ h _ taken => h.step taken
  exact List.ne_nil_of_mem doomed.held

end

/-- A check of `Stored` on a valid tree. -/
def storedHere (q : TimerQueue (Rbtree Nat) Ptr) : Bool :=
  q.tree.readNodes.any fun nodes => (nodes.map fun x => x.2.val).Nodup ∧
    nodes.all fun x => (q.timers x.2.val).isSome

theorem storedHere_sound {q : TimerQueue (Rbtree Nat) Ptr} (check : storedHere q = true) : Stored q := by
  obtain ⟨nodes, found, check⟩ := (Option.any_eq_true _ _).mp check
  obtain ⟨distinct, live⟩ := of_decide_eq_true check
  exact ⟨nodes, (Rbtree.readNodes_search found).weaken, distinct, List.all_eq_true.mp live⟩

/-- A check of `Ticks`. -/
def ticking (l : TimerLoop (Rbtree Nat) Ptr) (op : TimerOp) : Bool :=
  !l.pc.batch.isEmpty && match op with
  | .cancelTimer id => (l.queue.ref.lookup id).join.all fun p =>
    (l.queue.timers p).isSome ∧ p ∉ l.pc.batch
  | _ => true

theorem ticking_sound (l : TimerLoop (Rbtree Nat) Ptr) (op : TimerOp) (check : ticking l op = true) :
    Ticks l op := by
  obtain ⟨some_, careful⟩ := (Bool.and_eq_true _ _).mp check
  refine ⟨by simpa using some_, ?_⟩
  cases op with
  | cancelTimer id =>
    intro p known
    dsimp only at careful
    rw [known] at careful
    exact of_decide_eq_true careful
  | addTimer => trivial
  | clock => trivial
  | perTick => trivial
  | handleRead => trivial
  | visit => trivial
  | return_ => trivial

/-- Two of three timers are due. The callback of the first cancels the third and adds a fourth, and the
callback of the second cancels the fourth. -/
theorem tick_safe_cancelling : ∃ l l' l'' : TimerLoop (Rbtree Nat) Ptr,
    [.addTimer 10 1 7, .addTimer 20 1 7, .addTimer 50 1 7, .clock 1021].foldlM next
      (start (Rbtree.create 0) 1000) = some l ∧ Steps l .perTick l' ∧
    [.visit, .cancelTimer 3, .addTimer 5 1 8, .return_, .visit, .cancelTimer 4].foldlM next l' =
      some l'' ∧
    l''.history.drop l.history.length = [.fired 0, .cancelled 2, .added 3, .fired 1, .cancelled 3] ∧
    Respects (l''.history.drop l.history.length) ∧ l''.step .return_ ≠ some (.error .deletedTimer) := by
  have made : ([.addTimer 10 1 7, .addTimer 20 1 7, .addTimer 50 1 7, .clock 1021].foldlM next
      (start (Rbtree.create 0) 1000)).any fun l => l.pc = .idle ∧ storedHere l.queue ∧
        (next l .perTick).any fun l' => ([.visit, .cancelTimer 3, .addTimer 5 1 8, .return_, .visit,
          .cancelTimer 4].foldlM (fun l op => if ticking l op then next l op else none) l').any fun l'' =>
            ticking l'' .return_ ∧ l''.history.drop l.history.length =
              [.fired 0, .cancelled 2, .added 3, .fired 1, .cancelled 3] := by
    decide +kernel
  obtain ⟨l, run, test⟩ := (Option.any_eq_true _ _).mp made
  obtain ⟨idle, stored, test⟩ := of_decide_eq_true test
  obtain ⟨l', first, test⟩ := (Option.any_eq_true _ _).mp test
  obtain ⟨l'', rest, test⟩ := (Option.any_eq_true _ _).mp test
  obtain ⟨ticks, events⟩ := of_decide_eq_true test
  obtain ⟨_, safe, respects⟩ := tick_safe l l' l'' .perTick (.inl rfl) idle (storedHere_sound stored)
    first (.of_checked next ticking ticking_sound _ rest)
  exact ⟨l, l', l'', run, first, foldlM_of_checked next ticking _ rest, events, respects,
    safe _ (ticking_sound _ _ ticks)⟩

/-- A callback that cancels the other expired timer, or its own: the tick goes on to use it. -/
theorem tick_unsafe :
    (∃ l : TimerLoop (Rbtree Nat) Ptr, [.addTimer 10 1 7, .addTimer 20 1 7, .clock 1021, .perTick, .visit,
        .cancelTimer 2, .return_].foldlM next (start (Rbtree.create 0) 1000) = some l ∧
      l.step .visit = some (.error .deletedTimer)) ∧
    ∃ l : TimerLoop (Rbtree Nat) Ptr, [.addTimer 10 1 7, .clock 1011, .perTick, .visit,
        .cancelTimer 1].foldlM next (start (Rbtree.create 0) 1000) = some l ∧
      l.step .return_ = some (.error .deletedTimer) := by
  have other : ([.addTimer 10 1 7, .addTimer 20 1 7, .clock 1021, .perTick, .visit, .cancelTimer 2,
      .return_].foldlM next (start (Rbtree.create 0) 1000)).any (fun l => l.usesDeleted .visit) := by
    decide +kernel
  have own : ([.addTimer 10 1 7, .clock 1011, .perTick, .visit, .cancelTimer 1].foldlM next
      (start (Rbtree.create 0) 1000)).any (fun l => l.usesDeleted .return_) := by
    decide +kernel
  constructor
  · obtain ⟨l, run, uses⟩ := (Option.any_eq_true _ _).mp other
    exact ⟨l, run, usesDeleted_iff.mp uses⟩
  · obtain ⟨l, run, uses⟩ := (Option.any_eq_true _ _).mp own
    exact ⟨l, run, usesDeleted_iff.mp uses⟩

end TimerLoop

end Yamq
