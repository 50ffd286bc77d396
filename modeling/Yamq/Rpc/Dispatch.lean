import Yamq.Rpc.Channel

/-! The inner loop of `EventDispatcher::Start` over one batch of events. A handler is given by what
it does to the registrations and the descriptors of the loop; that choice comes with the batch. -/
namespace Yamq

structure Event where
  revents : Flags
  fd : Int
deriving DecidableEq, Repr

/-- The registrations of a loop and the descriptors that are open. -/
structure Dispatch where
  regs : Registrations
  isOpen : Int → Bool

inductive HandlerAct where
  | remove (c : Channel)       -- `Channel::Remove`
  | forceClose (c : Channel)   -- `Channel::Remove`, then `::close`
  | accept (c : Channel)       -- `accept4` and the registration of the new connection's channel
deriving DecidableEq, Repr

namespace HandlerAct

def fd : HandlerAct → Int
  | .remove c => c.fd
  | .forceClose c => c.fd
  | .accept c => c.fd

def isAccept : HandlerAct → Bool
  | .accept _ => true
  | _ => false

end HandlerAct

namespace Dispatch

def setOpen (s : Dispatch) (fd : Int) (isOpen : Bool) : Dispatch :=
  { s with isOpen := fun d => if d = fd then isOpen else s.isOpen d }

/-- The kernel gives `accept4` the number of a descriptor that is not open; with another number
nothing has happened. -/
def perform (s : Dispatch) : HandlerAct → Except Fault Dispatch
  | .remove c => do return { s with regs := ← s.regs.removeChannel c }
  | .forceClose c => do return { s with regs := ← s.regs.removeChannel c }.setOpen c.fd false
  | .accept c =>
    if s.isOpen c.fd then .ok s
    else do return { s with regs := ← s.regs.registerChannel c }.setOpen c.fd true

def performAll (s : Dispatch) : List HandlerAct → Except Fault Dispatch
  | [] => .ok s
  | act :: acts => do (← s.perform act).performAll acts

/-- What `HandleEvent` runs: nothing for an event without flags. -/
def ran (ev : Event) (acts : List HandlerAct) : List HandlerAct :=
  if ev.revents = EV_NONE then [] else acts

/-- One event. An event without a channel is taken for one of a descriptor that must go. -/
def handle (s : Dispatch) (ev : Event) (acts : List HandlerAct) : Except Fault Dispatch :=
  match s.regs.channels ev.fd with
  | some _ => s.performAll (ran ev acts)
  | none => do return { s with regs := ← s.regs.remove ev.fd }

abbrev Batch := List (Event × List HandlerAct)

def run (s : Dispatch) : Batch → Except Fault Dispatch
  | [] => .ok s
  | (ev, acts) :: batch => do (← s.handle ev acts).run batch

/-- The channels to which the events of a batch are delivered, up to its end or a fault. -/
def deliveries (s : Dispatch) : Batch → List (Event × Nat)
  | [] => []
  | (ev, acts) :: batch =>
    let later := match s.handle ev acts with
      | .ok s => s.deliveries batch
      | .error _ => []
    match s.regs.channels ev.fd with
    | some self => (ev, self) :: later
    | none => later

/-- What `Select` returns: each descriptor once, and only registered ones. -/
structure Selected (s : Dispatch) (batch : Batch) : Prop where
  once : (batch.map fun x => x.1.fd).Nodup
  registered : ∀ x ∈ batch, s.regs.channels x.1.fd ≠ none

/-- `_channels` and the epoll instance know the same descriptors. -/
def Consistent (s : Dispatch) : Prop :=
  ∀ fd, s.regs.interest fd = none ↔ s.regs.channels fd = none

/-! Removals. -/

/-- The purpose of the loop: an event is handled if its channel is still there, and dropped without
effect if not. -/
def runDropping (s : Dispatch) : Batch → Except Fault Dispatch
  | [] => .ok s
  | (ev, acts) :: batch =>
    match s.regs.channels ev.fd with
    | some _ => do (← s.performAll (ran ev acts)).runDropping batch
    | none => s.runDropping batch

/-- No handler removes the channel of an event that stands behind its own. -/
def LeavesLater (batch : Batch) : Prop :=
  batch.Pairwise fun x y => ∀ act ∈ ran x.1 x.2, act.fd ≠ y.1.fd

variable {s t : Dispatch} {acts : List HandlerAct} {batch : Batch}

/-- A removal takes out its descriptor and nothing else. -/
theorem perform_removes {act : HandlerAct} (removes : act.isAccept = false)
    (run : s.perform act = .ok t) :
    (∀ fd, t.regs.channels fd = if fd = act.fd then none else s.regs.channels fd) ∧
      ∀ fd, t.regs.interest fd = if fd = act.fd then none else s.regs.interest fd := by
  cases act with
  | remove c =>
    simp only [perform, bind_eq_ok] at run
    obtain ⟨r, removed, run⟩ := run
    cases run
    exact Registrations.removeChannel_ok removed
  | forceClose c =>
    simp only [perform, bind_eq_ok] at run
    obtain ⟨r, removed, run⟩ := run
    cases run
    exact Registrations.removeChannel_ok removed
  | accept c => cases removes

theorem performAll_removes (removes : ∀ act ∈ acts, act.isAccept = false)
    (run : s.performAll acts = .ok t) :
    (∀ fd, t.regs.channels fd = if fd ∈ acts.map HandlerAct.fd then none else s.regs.channels fd) ∧
      ∀ fd, t.regs.interest fd =
        if fd ∈ acts.map HandlerAct.fd then none else s.regs.interest fd := by
  induction acts generalizing s with
  | nil =>
    cases run
    simp
  | cons act acts ih =>
    rw [performAll, bind_eq_ok] at run
    obtain ⟨u, first, rest⟩ := run
    rw [List.forall_mem_cons] at removes
    obtain ⟨channels, interest⟩ := perform_removes removes.1 first
    obtain ⟨channels', interest'⟩ := ih removes.2 rest
    constructor
    · intro fd
      rw [channels', channels]
      by_cases here : fd = act.fd <;> simp [here]
    · intro fd
      rw [interest', interest]
      by_cases here : fd = act.fd <;> simp [here]

theorem Consistent.performAll (h : s.Consistent) (removes : ∀ act ∈ acts, act.isAccept = false)
    (run : s.performAll acts = .ok t) : t.Consistent := by
  obtain ⟨channels, interest⟩ := performAll_removes removes run
  intro fd
  rw [channels, interest]
  split
  · simp
  · exact h fd

theorem ran_removes {ev : Event} (removes : ∀ act ∈ acts, act.isAccept = false) :
    ∀ act ∈ ran ev acts, act.isAccept = false := by
  unfold ran
  split
  · intro act member
    cases member
  · exact removes

/-- Once the channel of a later event is gone, the loop runs into `LOG(FATAL)` or another fault. -/
theorem run_missing (h : s.Consistent) (removes : ∀ x ∈ batch, ∀ act ∈ x.2, act.isAccept = false)
    (missing : ∃ x ∈ batch, s.regs.channels x.1.fd = none) : ∀ t, s.run batch ≠ .ok t := by
  induction batch generalizing s with
  | nil =>
    obtain ⟨x, member, _⟩ := missing
    cases member
  | cons x batch ih =>
    obtain ⟨ev, acts⟩ := x
    rw [List.forall_mem_cons] at removes
    intro t done
    rw [run, bind_eq_ok] at done
    obtain ⟨u, first, rest⟩ := done
    unfold handle at first
    split at first
    · rename_i self found
      have kept := performAll_removes (ran_removes removes.1) first
      apply ih (h.performAll (ran_removes removes.1) first) removes.2 _ t rest
      obtain ⟨y, member, gone⟩ := missing
      rcases List.mem_cons.mp member with rfl | later
      · rw [found] at gone
        cases gone
      · refine ⟨y, later, ?_⟩
        rw [kept.1]
        split
        · rfl
        · exact gone
    · rename_i gone
      rw [Registrations.remove, if_pos ((h ev.fd).mpr gone)] at first
      cases first

/-- For every batch and every choice of handlers that remove channels: the loop does what its
purpose says exactly when no handler removes the channel of an event behind its own. -/
theorem run_drops_iff (s t : Dispatch) (batch : Batch) (consistent : s.Consistent)
    (selected : s.Selected batch) (removes : ∀ x ∈ batch, ∀ act ∈ x.2, act.isAccept = false)
    (purpose : s.runDropping batch = .ok t) : s.run batch = .ok t ↔ LeavesLater batch := by
  induction batch generalizing s with
  | nil =>
    simp only [runDropping] at purpose
    simp [run, LeavesLater, purpose]
  | cons x batch ih =>
    obtain ⟨ev, acts⟩ := x
    obtain ⟨once, registered⟩ := selected
    rw [List.map_cons, List.nodup_cons] at once
    rw [List.forall_mem_cons] at registered removes
    rw [LeavesLater, List.pairwise_cons]
    cases found : s.regs.channels ev.fd with
    | none => exact absurd found registered.1
    | some self =>
      simp only [runDropping, found, bind_eq_ok] at purpose
      obtain ⟨u, first, purpose⟩ := purpose
      have handled : s.handle ev acts = .ok u := by
        simp only [handle, found, first]
      have left := performAll_removes (ran_removes removes.1) first
      have consistent' := consistent.performAll (ran_removes removes.1) first
      rw [run, handled, ok_bind]
      by_cases spared : ∀ y ∈ batch, ∀ act ∈ ran ev acts, act.fd ≠ y.1.fd
      · have registered' : ∀ y ∈ batch, u.regs.channels y.1.fd ≠ none := by
          intro y member
          rw [left.1, if_neg]
          · exact registered.2 y member
          · rw [List.mem_map]
            rintro ⟨act, performed, same⟩
            exact spared y member act performed same
        have rest := ih u consistent' ⟨once.2, registered'⟩ removes.2 purpose
        rw [rest]
        exact ⟨fun later => ⟨spared, later⟩, fun both => both.2⟩
      · constructor
        · intro done
          have missing : ∃ y ∈ batch, u.regs.channels y.1.fd = none := by
            simp only [not_forall, not_not] at spared
            obtain ⟨y, member, act, performed, same⟩ := spared
            refine ⟨y, member, ?_⟩
            rw [left.1, if_pos]
            rw [← same]
            exact List.mem_map_of_mem performed
          exact absurd done (run_missing consistent' removes.2 missing t)
        · exact fun both => absurd both.1 spared

/-- An acceptor on descriptor 4 and two connections on 5 and 6, open and registered. -/
def twoOpen : Dispatch where
  regs := ⟨fun fd => if fd = 4 ∨ fd = 5 ∨ fd = 6 then some EPOLLIN else none,
    fun fd => if fd = 4 then some 3 else if fd = 5 then some 0 else if fd = 6 then some 1 else none⟩
  isOpen := fun fd => fd = 4 || fd = 5 || fd = 6

theorem twoOpen_consistent : twoOpen.Consistent := by
  intro fd
  by_cases four : fd = 4 <;> by_cases five : fd = 5 <;> by_cases six : fd = 6 <;>
    simp [twoOpen, four, five, six]

/-- The second handler removes the channel of the first, whose event is over. -/
theorem run_drops_backwards : ∃ t,
    twoOpen.run [(⟨EV_READ, 5⟩, []), (⟨EV_READ, 6⟩, [.forceClose ⟨0, 5, EV_READ, true⟩])] = .ok t := by
  refine ⟨_, (run_drops_iff twoOpen _ _ twoOpen_consistent ⟨by decide, ?_⟩ ?_ rfl).mpr ?_⟩
  · simp [twoOpen]
  · simp [HandlerAct.isAccept]
  · simp [LeavesLater, ran]

/-- The first handler removes the channel of the second event. -/
theorem run_removed_later :
    twoOpen.Consistent ∧
      twoOpen.Selected [(⟨EV_READ, 5⟩, [.forceClose ⟨1, 6, EV_READ, true⟩]), (⟨EV_READ, 6⟩, [])] ∧
      twoOpen.run [(⟨EV_READ, 5⟩, [.forceClose ⟨1, 6, EV_READ, true⟩]), (⟨EV_READ, 6⟩, [])] =
        .error .abort ∧
      ∃ t, twoOpen.runDropping
        [(⟨EV_READ, 5⟩, [.forceClose ⟨1, 6, EV_READ, true⟩]), (⟨EV_READ, 6⟩, [])] = .ok t := by
  refine ⟨twoOpen_consistent, ⟨by decide, ?_⟩, rfl, _, rfl⟩
  simp [twoOpen]

/-! Descriptors that are used again. -/

/-- No handler accepts a connection under the descriptor of an event that stands behind its own. -/
def SparesNumbers (batch : Batch) : Prop :=
  batch.Pairwise fun x y => ∀ act ∈ ran x.1 x.2, act.isAccept = true → act.fd ≠ y.1.fd

/-- The channel under a descriptor is gone or the same. -/
def Same (s t : Dispatch) (fd : Int) : Prop :=
  t.regs.channels fd = none ∨ t.regs.channels fd = s.regs.channels fd

theorem Same.trans {u : Dispatch} {fd : Int} (first : Same s t fd) (second : Same t u fd) :
    Same s u fd := by
  rcases second with none | same
  · exact .inl none
  · rcases first with none | same'
    · exact .inl (same.trans none)
    · exact .inr (same.trans same')

theorem perform_same {act : HandlerAct} {fd : Int} (run : s.perform act = .ok t)
    (spared : act.isAccept = true → act.fd ≠ fd) : Same s t fd := by
  cases accepts : act.isAccept with
  | false =>
    rw [Same, (perform_removes accepts run).1]
    split
    · exact .inl rfl
    · exact .inr rfl
  | true =>
    have other := spared accepts
    cases act with
    | remove c => cases accepts
    | forceClose c => cases accepts
    | accept c =>
      simp only [perform] at run
      split at run
      · cases run
        exact .inr rfl
      · rw [bind_eq_ok] at run
        obtain ⟨r, registered, run⟩ := run
        rw [Registrations.registerChannel, bind_eq_ok] at registered
        obtain ⟨r1, added, registered⟩ := registered
        unfold Registrations.add at added
        split at added
        · cases added
          cases registered
          cases run
          exact .inr (if_neg fun same => other same.symm)
        · cases added

theorem performAll_same {fd : Int} (run : s.performAll acts = .ok t)
    (spared : ∀ act ∈ acts, act.isAccept = true → act.fd ≠ fd) : Same s t fd := by
  induction acts generalizing s with
  | nil =>
    cases run
    exact .inr rfl
  | cons act acts ih =>
    rw [performAll, bind_eq_ok] at run
    obtain ⟨u, first, rest⟩ := run
    rw [List.forall_mem_cons] at spared
    exact (perform_same first spared.1).trans (ih rest spared.2)

theorem handle_same {ev : Event} {fd : Int} (run : s.handle ev acts = .ok t)
    (spared : ∀ act ∈ ran ev acts, act.isAccept = true → act.fd ≠ fd) : Same s t fd := by
  unfold handle at run
  split at run
  · exact performAll_same run spared
  · rw [bind_eq_ok] at run
    obtain ⟨r, removed, run⟩ := run
    unfold Registrations.remove at removed
    split at removed
    · cases removed
    · cases removed
      cases run
      exact .inr rfl

/-- The events of a batch go to the channels of an earlier state `s` under their descriptors, if
those are still the same or gone when the batch begins and stay so. -/
theorem deliveries_same (same : ∀ x ∈ batch, Same s t x.1.fd) (spares : SparesNumbers batch) :
    ∀ d ∈ t.deliveries batch, s.regs.channels d.1.fd = some d.2 := by
  induction batch generalizing t with
  | nil =>
    intro d member
    cases member
  | cons x batch ih =>
    obtain ⟨ev, acts⟩ := x
    rw [SparesNumbers, List.pairwise_cons] at spares
    rw [List.forall_mem_cons] at same
    have later : ∀ d ∈ (match t.handle ev acts with
        | .ok t => t.deliveries batch
        | .error _ => []), s.regs.channels d.1.fd = some d.2 := by
      cases handled : t.handle ev acts with
      | error f =>
        intro d member
        cases member
      | ok u =>
        apply ih _ spares.2
        intro y member
        exact (same.2 y member).trans (handle_same handled (spares.1 y member))
    intro d member
    unfold deliveries at member
    cases found : t.regs.channels ev.fd with
    | none =>
      rw [found] at member
      exact later d member
    | some self =>
      rw [found] at member
      rcases List.mem_cons.mp member with rfl | member
      · rcases same.1 with gone | kept
        · rw [found] at gone
          cases gone
        · exact kept.symm.trans found
      · exact later d member

/-- For every batch and every sequence of handler actions: as long as no handler accepts a
connection under the descriptor of an event that is still to come, each event goes to the channel
that was registered under its descriptor when `Select` returned. -/
theorem delivered_to_selected (s : Dispatch) (batch : Batch) (spares : SparesNumbers batch) :
    ∀ d ∈ s.deliveries batch, s.regs.channels d.1.fd = some d.2 :=
  deliveries_same (fun _ _ => .inr rfl) spares

/-- The condition is exact for the event that comes next: a connection closed and its number given
to another, and the event of the old one goes to the new one. -/
theorem delivered_to_reused {c old : Channel} {ev ev' : Event} {u : Dispatch} {self : Nat}
    {acts : List HandlerAct} (flags : ev.revents ≠ EV_NONE) (found : s.regs.channels ev.fd = some self)
    (reused : s.performAll [.forceClose old, .accept c] = .ok u) (number : old.fd = c.fd)
    (target : ev'.fd = c.fd) :
    (ev', c.self) ∈ s.deliveries [(ev, [.forceClose old, .accept c]), (ev', acts)] := by
  have handled : s.handle ev [.forceClose old, .accept c] = .ok u := by
    simp only [handle, found, ran, if_neg flags, reused]
  have registered : u.regs.channels ev'.fd = some c.self := by
    rw [performAll, bind_eq_ok] at reused
    obtain ⟨v, closed, reused⟩ := reused
    have gone := (perform_removes rfl closed).1 c.fd
    rw [if_pos (by rw [HandlerAct.fd, number])] at gone
    have free : v.isOpen c.fd = false := by
      simp only [perform, bind_eq_ok] at closed
      obtain ⟨r, _, closed⟩ := closed
      cases closed
      simp [setOpen, number]
    simp only [performAll, perform, free, Bool.false_eq_true, if_false, bind_eq_ok] at reused
    obtain ⟨w, ⟨r, register, opened⟩, rest⟩ := reused
    cases opened
    cases rest
    rw [Registrations.registerChannel, bind_eq_ok] at register
    obtain ⟨r1, added, register⟩ := register
    unfold Registrations.add at added
    split at added
    · cases added
      cases register
      simp [setOpen, Registrations.watch, target, gone]
    · cases added
  simp [deliveries, found, handled, registered]

theorem delivered_to_selected_elsewhere :
    SparesNumbers [(⟨EV_READ, 4⟩, [.accept ⟨2, 7, EV_READ, false⟩]), (⟨EV_READ, 6⟩, [])] ∧
    ∀ d ∈ twoOpen.deliveries [(⟨EV_READ, 4⟩, [.accept ⟨2, 7, EV_READ, false⟩]), (⟨EV_READ, 6⟩, [])],
      twoOpen.regs.channels d.1.fd = some d.2 := by
  have spares : SparesNumbers
      [(⟨EV_READ, 4⟩, [.accept ⟨2, 7, EV_READ, false⟩]), (⟨EV_READ, 6⟩, [])] := by
    simp [SparesNumbers, ran, HandlerAct.fd, EV_READ, EV_NONE]
  exact ⟨spares, delivered_to_selected twoOpen _ spares⟩

/-- The first handler closes the connection on descriptor 6, and the acceptor's handler gets the
number for the next connection. -/
def reusedNumber : Batch :=
  [(⟨EV_READ, 5⟩, [.forceClose ⟨1, 6, EV_READ, true⟩]),
    (⟨EV_READ, 4⟩, [.accept ⟨2, 6, EV_READ, false⟩]), (⟨EV_READ, 6⟩, [])]

theorem delivered_to_wrong_channel : twoOpen.Selected reusedNumber ∧
    ¬ ∀ d ∈ twoOpen.deliveries reusedNumber, twoOpen.regs.channels d.1.fd = some d.2 := by
  refine ⟨⟨by decide, by simp [twoOpen, reusedNumber]⟩, ?_⟩
  decide

end Dispatch
end Yamq
