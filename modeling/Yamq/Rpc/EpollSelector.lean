import Yamq.Rpc.PollSelector
import Yamq.Lib.Transition

/-! `rpc/epoll_selector.cpp`, beside `PollSelector`: what the kernel is asked for, what it answers, and the
vector that takes the answers. -/
namespace Yamq

def EPOLLPRI : Flags := 0x002
def EPOLLERR : Flags := 0x008
def EPOLLHUP : Flags := 0x010
def EPOLLRDHUP : Flags := 0x2000

/-- `_trans_epollev_to_ev` -/
def transEpollevToEv (epollev : Flags) : Flags :=
  (if epollev &&& EPOLLOUT ≠ 0 then EV_WRITE else 0) ||| (if epollev &&& EPOLLIN ≠ 0 then EV_READ else 0) |||
  (if epollev &&& EPOLLPRI ≠ 0 then EV_READ else 0) ||| (if epollev &&& EPOLLERR ≠ 0 then EV_ERROR else 0) |||
  (if epollev &&& EPOLLHUP ≠ 0 then EV_ERROR else 0) ||| (if epollev &&& EPOLLRDHUP ≠ 0 then EV_CLOSE else 0)

/-- `struct epoll_event` -/
structure EpollEvent where
  events : Flags
  fd : Int
deriving DecidableEq, Repr

structure EpollSelector where
  /-- what the kernel keeps for `_epfd` -/
  interest : Finmap fun _ : Int => Flags := ∅
  /-- `_events.size()` -/
  eventsSize : Nat := 10

namespace EpollSelector

/-! A call of `epoll_ctl` that fails is fatal. -/

def add (s : EpollSelector) (fd : Int) (events : Flags) : Except Fault (Int × EpollSelector) :=
  if 0 ≤ fd ∧ s.interest.lookup fd = none then
    .ok (0, { s with interest := s.interest.insert fd (epollEvents events) })
  else .error .abort

def update (s : EpollSelector) (fd : Int) (events : Flags) : Except Fault (Int × EpollSelector) :=
  if s.interest.lookup fd = none then .error .abort
  else .ok (0, { s with interest := s.interest.insert fd (epollEvents events) })

def remove (s : EpollSelector) (fd : Int) : Except Fault (Int × EpollSelector) :=
  if s.interest.lookup fd = none then .error .abort
  else .ok (0, { s with interest := s.interest.erase fd })

/-- `Select` with what `epoll_wait` has stored; `none` is a negative result. -/
def select (s : EpollSelector) : Option (List EpollEvent) → Int × List PolledEvent × EpollSelector
  | none => (-1, [], s)
  | some [] => (0, [], s)
  | some ready =>
    let events := ready.map fun event => ⟨transEpollevToEv event.events, event.fd⟩
    if s.eventsSize = ready.length then (0, events, { s with eventsSize := ready.length * 2 })
    else (0, events, s)

def call (s : EpollSelector) : SelectorCall → Except Fault (Int × EpollSelector)
  | .add fd events => s.add fd events
  | .update fd events => s.update fd events
  | .remove fd => s.remove fd

def run (s : EpollSelector) : List SelectorCall → Except Fault EpollSelector
  | [] => .ok s
  | c :: calls => do
    let (_, t) ← s.call c
    t.run calls

end EpollSelector

/-! What a descriptor is ready for, and how `poll` and `epoll_wait` report it: what was asked for, and
errors and hangups without being asked. -/

structure Readiness where
  input : Bool
  output : Bool
  priority : Bool
  error : Bool
  hangup : Bool
deriving DecidableEq, Repr

def POLLERR : BitVec 16 := 0x008
def POLLHUP : BitVec 16 := 0x010

def Readiness.poll (r : Readiness) (events : BitVec 16) : BitVec 16 :=
  (if r.input ∧ events &&& POLLIN ≠ 0 then POLLIN else 0) |||
  (if r.output ∧ events &&& POLLOUT ≠ 0 then POLLOUT else 0) |||
  (if r.error then POLLERR else 0) ||| (if r.hangup then POLLHUP else 0)

def Readiness.epoll (r : Readiness) (events : Flags) : Flags :=
  (if r.input ∧ events &&& EPOLLIN ≠ 0 then EPOLLIN else 0) |||
  (if r.output ∧ events &&& EPOLLOUT ≠ 0 then EPOLLOUT else 0) |||
  (if r.priority ∧ events &&& EPOLLPRI ≠ 0 then EPOLLPRI else 0) |||
  (if r.error then EPOLLERR else 0) ||| (if r.hangup then EPOLLHUP else 0)

/-- Both selectors report the same readiness, but `PollSelector` has no `EV_ERROR`. -/
theorem transEv_poll (r : Readiness) (events : Flags) :
    transEv (r.poll (pollEvents events)) = transEpollevToEv (r.epoll (epollEvents events)) &&& ~~~EV_ERROR ∧
      (r.poll (pollEvents events) ≠ 0 ↔ r.epoll (epollEvents events) ≠ 0) ∧
      (0 < (r.poll (pollEvents events)).toInt ↔ r.epoll (epollEvents events) ≠ 0) := by
  obtain ⟨read, write, polled, epolled⟩ : ∃ read write : Bool,
      pollEvents events = (if read then POLLIN else 0) ||| (if write then POLLOUT else 0) ∧
      epollEvents events = (if read then EPOLLIN else 0) ||| (if write then EPOLLOUT else 0) :=
    ⟨decide (EV_READ &&& events ≠ 0), decide (EV_WRITE &&& events ≠ 0), by simp [pollEvents],
      by simp [epollEvents]⟩
  rw [polled, epolled]
  obtain ⟨input, output, priority, error, hangup⟩ := r
  cases read <;> cases write <;> cases input <;> cases output <;> cases priority <;> cases error <;>
    cases hangup <;> decide

/-- What `poll` answers: how many entries have an event, and the events. -/
def PollSelector.polled (s : PollSelector) (ready : Int → Readiness) : PollResult where
  active := s.pollfds.toList.countP fun p => (ready p.fd).poll p.events ≠ 0
  revents i :=
    match s.pollfds[i]? with
    | some p => (ready p.fd).poll p.events
    | none => 0

/-- What `epoll_wait` may answer: some of the descriptors that are ready, in any order, and all of them
unless the vector is full. -/
structure EpollSelector.Answers (s : EpollSelector) (ready : Int → Readiness) (out : List EpollEvent) :
    Prop where
  once : (out.map EpollEvent.fd).Nodup
  fits : out.length ≤ s.eventsSize
  each : ∀ event ∈ out, ∃ events, s.interest.lookup event.fd = some events ∧
    event.events = (ready event.fd).epoll events ∧ event.events ≠ 0
  all : out.length < s.eventsSize → ∀ fd events, s.interest.lookup fd = some events →
    (ready fd).epoll events ≠ 0 → ∃ event ∈ out, event.fd = fd

/-- A call that `epoll_ctl` does not refuse. -/
def SelectorCall.Accepted (asked : Int → Option Flags) : SelectorCall → Prop
  | .add fd _ => 0 ≤ fd ∧ asked fd = none
  | .update fd _ => asked fd ≠ none
  | .remove fd => asked fd ≠ none

def AcceptedCalls : (Int → Option Flags) → List SelectorCall → Prop
  | _, [] => True
  | asked, c :: calls => c.Accepted asked ∧ AcceptedCalls (c.note asked) calls

variable {asked : Int → Option Flags}

theorem SelectorCall.Accepted.proper {c : SelectorCall} (h : c.Accepted asked) : c.Proper asked := by
  cases c with
  | add => exact h.2
  | update => trivial
  | remove => trivial

theorem AcceptedCalls.proper {calls : List SelectorCall} (h : AcceptedCalls asked calls) :
    ProperCalls asked calls := by
  induction calls generalizing asked with
  | nil => trivial
  | cons c calls ih => exact ⟨h.1.proper, ih h.2⟩

namespace EpollSelector

/-- The kernel has the events that were last asked for. -/
def Watches (s : EpollSelector) (asked : Int → Option Flags) : Prop :=
  ∀ fd, s.interest.lookup fd = (asked fd).map epollEvents

variable {s : EpollSelector}

theorem Watches.none_iff (h : Watches s asked) {fd : Int} :
    s.interest.lookup fd = none ↔ asked fd = none := by
  rw [h fd, Option.map_eq_none_iff]

theorem Watches.insert (h : Watches s asked) (fd : Int) (events : Flags) :
    Watches { s with interest := s.interest.insert fd (epollEvents events) }
      fun d => if d = fd then some events else asked d := by
  intro d
  dsimp only
  by_cases same : d = fd
  · rw [same, Finmap.lookup_insert, if_pos rfl, Option.map_some]
  · rw [Finmap.lookup_insert_of_ne _ same, if_neg same, h d]

theorem Watches.call (h : Watches s asked) {c : SelectorCall} (accepted : c.Accepted asked) :
    ∃ t, s.call c = .ok (0, t) ∧ Watches t (c.note asked) ∧ t.eventsSize = s.eventsSize := by
  cases c with
  | add fd events =>
    have absent := h.none_iff.mpr accepted.2
    exact ⟨_, if_pos ⟨accepted.1, absent⟩, h.insert fd events, rfl⟩
  | update fd events =>
    have present : s.interest.lookup fd ≠ none := fun none => accepted (h.none_iff.mp none)
    refine ⟨_, if_neg present, ?_, rfl⟩
    have same : (SelectorCall.update fd events).note asked =
        fun d => if d = fd then some events else asked d := by
      funext d
      by_cases own : d = fd
      · obtain ⟨old, was⟩ := Option.ne_none_iff_exists'.mp accepted
        rw [own, note_update, was, Option.map_some, if_pos rfl]
      · rw [note_other asked (.update fd events) own, if_neg own]
    rw [same]
    exact h.insert fd events
  | remove fd =>
    have present : s.interest.lookup fd ≠ none := fun none => accepted (h.none_iff.mp none)
    refine ⟨_, if_neg present, fun d => ?_, rfl⟩
    by_cases own : d = fd
    · rw [own, note_remove, Finmap.lookup_erase]
      rfl
    · rw [note_other asked (.remove fd) own, Finmap.lookup_erase_ne own, h d]

theorem Watches.run (h : Watches s asked) {calls : List SelectorCall}
    (accepted : AcceptedCalls asked calls) :
    ∃ t, s.run calls = .ok t ∧ Watches t (calls.foldl SelectorCall.note asked) ∧
      t.eventsSize = s.eventsSize := by
  induction calls generalizing s asked with
  | nil => exact ⟨s, rfl, h, rfl⟩
  | cons c calls ih =>
    obtain ⟨t, called, watches, size⟩ := h.call accepted.1
    obtain ⟨u, rest, end_, size'⟩ := ih watches accepted.2
    refine ⟨u, ?_, end_, size'.trans size⟩
    rw [EpollSelector.run, called]
    exact rest

theorem watches_empty : Watches {} fun _ => none := fun _ => Finmap.lookup_empty _

end EpollSelector

/-! The events that are to be reported. -/

/-- What was asked for and what is ready make this event, without `EV_ERROR`. -/
def Due (asked : Int → Option Flags) (ready : Int → Readiness) (event : PolledEvent) : Prop :=
  ∃ events, asked event.fd = some events ∧ (ready event.fd).epoll (epollEvents events) ≠ 0 ∧
    event.revents = transEpollevToEv ((ready event.fd).epoll (epollEvents events)) &&& ~~~EV_ERROR

def PolledEvent.clearError (event : PolledEvent) : PolledEvent :=
  { event with revents := event.revents &&& ~~~EV_ERROR }

theorem activeEvents_all (pfds : List Pollfd) :
    PollSelector.activeEvents pfds (pfds.countP fun p => 0 < p.revents.toInt) =
      (pfds.filter fun p => 0 < p.revents.toInt).map fun p => ⟨transEv p.revents, p.fd⟩ := by
  induction pfds with
  | nil => rfl
  | cons p pfds ih =>
    rw [PollSelector.activeEvents]
    by_cases some_ : 0 < p.revents.toInt
    · have more : 0 < ((p :: pfds).countP fun p => decide (0 < p.revents.toInt) : Int) := by
        rw [List.countP_cons_of_pos (by simpa using some_)]
        omega
      rw [if_pos more, if_pos some_, List.filter_cons_of_pos (by simpa using some_), List.map_cons, ← ih,
        List.countP_cons_of_pos (by simpa using some_), Int.natCast_add, Int.natCast_one,
        Int.add_sub_cancel]
    · rw [if_neg some_, List.filter_cons_of_neg (by simpa using some_), ← ih,
        List.countP_cons_of_neg (by simpa using some_)]
      split
      · rfl
      · rename_i none
        cases pfds with
        | nil => rfl
        | cons q pfds => rw [PollSelector.activeEvents, if_neg none]

theorem PollSelector.select_events (s : PollSelector) (ready : Int → Readiness)
    (signs : ∀ p ∈ s.pollfds, (ready p.fd).poll p.events ≠ 0 ↔ 0 < ((ready p.fd).poll p.events).toInt) :
    ∃ rc t, s.select (s.polled ready) = .ok (rc, (s.pollfds.toList.filter fun p =>
      (ready p.fd).poll p.events ≠ 0).map fun p => ⟨transEv ((ready p.fd).poll p.events), p.fd⟩, t) := by
  let write (p : Pollfd) : Pollfd := { p with revents := (ready p.fd).poll p.events }
  have written : (s.pollfds.mapIdx fun i pfd =>
      { pfd with revents := (s.polled ready).revents i }).toList = s.pollfds.toList.map write := by
    apply List.ext_getElem
    · simp
    · intro k low high
      simp only [List.length_map, Array.length_toList] at high
      simp [PollSelector.polled, write, Array.getElem?_eq_getElem high]
  have positive (p : Pollfd) (member : p ∈ s.pollfds.toList) :
      decide ((ready p.fd).poll p.events ≠ 0) = decide (0 < (write p).revents.toInt) :=
    decide_eq_decide.mpr (signs p (Array.mem_toList_iff.mp member))
  have count : (s.polled ready).active =
      ((s.pollfds.toList.map write).countP fun p => 0 < p.revents.toInt : Nat) := by
    rw [List.countP_map]
    exact congrArg Int.ofNat (List.countP_congr fun p member => by
      rw [Function.comp_apply, ← positive p member])
  have events := activeEvents_all (s.pollfds.toList.map write)
  rw [← count, List.filter_map, List.map_map] at events
  have same : s.pollfds.toList.filter ((fun p => decide (0 < p.revents.toInt)) ∘ write) =
      s.pollfds.toList.filter fun p => decide ((ready p.fd).poll p.events ≠ 0) :=
    List.filter_congr fun p member => (positive p member).symm
  rw [same] at events
  have notNegative : ¬ (s.polled ready).active < 0 := by
    rw [count]
    omega
  simp only [PollSelector.select, if_neg notNegative]
  split
  · rename_i none
    rw [none] at events
    have empty : PollSelector.activeEvents (s.pollfds.toList.map write) 0 = [] := by
      cases s.pollfds.toList.map write with
      | nil => rfl
      | cons => exact if_neg (Int.lt_irrefl 0)
    have nothing := empty.symm.trans events
    refine ⟨-1, _, congrArg (fun xs => Except.ok (-1, xs, _)) nothing⟩
  · rw [written, events]
    exact ⟨0, _, rfl⟩

theorem PollSelector.Tracks.due_iff {s : PollSelector} (h : s.Tracks asked) (ready : Int → Readiness)
    (event : PolledEvent) : event ∈ ((s.pollfds.toList.filter fun p =>
      (ready p.fd).poll p.events ≠ 0).map fun p => (⟨transEv ((ready p.fd).poll p.events), p.fd⟩ :
        PolledEvent)) ↔ Due asked ready event := by
  simp only [List.mem_map, List.mem_filter, Array.mem_toList_iff, decide_eq_true_eq]
  constructor
  · rintro ⟨p, ⟨member, some_⟩, rfl⟩
    obtain ⟨events, was, translated⟩ := Option.map_eq_some_iff.mp (h.events p member)
    rw [← translated] at some_
    obtain ⟨same, nonzero, _⟩ := transEv_poll (ready p.fd) events
    refine ⟨events, was, nonzero.mp some_, ?_⟩
    dsimp only
    rw [← translated, same]
  · rintro ⟨events, was, some_, same⟩
    have present : s.fdIdxMap.lookup event.fd ≠ none := by
      intro none
      rw [h.absent event.fd none] at was
      cases was
    obtain ⟨i, here⟩ := Option.ne_none_iff_exists'.mp present
    obtain ⟨p, at_, fd⟩ := h.exact.entry here
    have member := Array.mem_of_getElem? at_
    have mask := h.events p member
    rw [fd, was, Option.map_some, Option.some.injEq] at mask
    obtain ⟨translated, nonzero, _⟩ := transEv_poll (ready event.fd) events
    refine ⟨p, ⟨member, ?_⟩, ?_⟩
    · rw [fd, ← mask]
      exact nonzero.mpr some_
    · rw [fd, ← mask, translated, ← same]

theorem EpollSelector.select_some (s : EpollSelector) (out : List EpollEvent) : (s.select (some out)).2.1 =
    out.map fun event => ⟨transEpollevToEv event.events, event.fd⟩ := by
  cases out with
  | nil => rfl
  | cons first rest =>
    simp only [EpollSelector.select]
    split <;> rfl

theorem EpollSelector.Watches.due_iff {s : EpollSelector} (h : s.Watches asked) {ready : Int → Readiness}
    {out : List EpollEvent} (answers : s.Answers ready out) (room : out.length < s.eventsSize)
    (event : PolledEvent) : event ∈ (s.select (some out)).2.1.map PolledEvent.clearError ↔
      Due asked ready event := by
  rw [s.select_some, List.map_map, List.mem_map]
  constructor
  · rintro ⟨answer, member, rfl⟩
    obtain ⟨mask, kept, reported, some_⟩ := answers.each answer member
    rw [h answer.fd] at kept
    obtain ⟨events, was, rfl⟩ := Option.map_eq_some_iff.mp kept
    refine ⟨events, was, reported ▸ some_, ?_⟩
    simp only [Function.comp_apply, PolledEvent.clearError, reported]
  · rintro ⟨events, was, some_, same⟩
    have kept : s.interest.lookup event.fd = some (epollEvents events) := by
      rw [h event.fd, was, Option.map_some]
    obtain ⟨answer, member, fd⟩ := answers.all room event.fd _ kept some_
    obtain ⟨mask, kept', reported, -⟩ := answers.each answer member
    rw [fd, kept, Option.some.injEq] at kept'
    refine ⟨answer, member, ?_⟩
    obtain ⟨revents, d⟩ := event
    dsimp only at fd same
    subst fd
    simp only [Function.comp_apply, PolledEvent.clearError, reported, ← kept', same]

/-- The two selectors do the same for the dispatcher. After every sequence of calls that `epoll_ctl` takes,
whatever the descriptors are ready for: the events that `PollSelector` reports are those that `EpollSelector`
reports in one batch, up to their order and without `EV_ERROR`. -/
theorem selectors_agree (calls : List SelectorCall) (accepted : AcceptedCalls (fun _ => none) calls) :
    ∃ p e, PollSelector.run {} calls = .ok p ∧ EpollSelector.run {} calls = .ok e ∧
      ∀ ready out, e.Answers ready out → out.length < e.eventsSize →
        ∃ rc events p', p.select (p.polled ready) = .ok (rc, events, p') ∧
          events.Perm ((e.select (some out)).2.1.map PolledEvent.clearError) := by
  obtain ⟨p, runs, tracks⟩ := PollSelector.tracks_empty.run accepted.proper
  obtain ⟨e, runs', watches, -⟩ := EpollSelector.watches_empty.run accepted
  refine ⟨p, e, runs, runs', fun ready out answers room => ?_⟩
  have signs : ∀ q ∈ p.pollfds, (ready q.fd).poll q.events ≠ 0 ↔
      0 < ((ready q.fd).poll q.events).toInt := by
    intro q member
    obtain ⟨events, -, translated⟩ := Option.map_eq_some_iff.mp (tracks.events q member)
    obtain ⟨_, nonzero, positive⟩ := transEv_poll (ready q.fd) events
    rw [← translated]
    exact nonzero.trans positive.symm
  obtain ⟨rc, p', selected⟩ := p.select_events ready signs
  refine ⟨rc, _, p', selected, ?_⟩
  -- no descriptor is reported twice, on either side
  have one : ((p.pollfds.toList.filter fun q => (ready q.fd).poll q.events ≠ 0).map fun q =>
      (⟨transEv ((ready q.fd).poll q.events), q.fd⟩ : PolledEvent)).Nodup := by
    apply List.Nodup.of_map PolledEvent.fd
    rw [List.map_map]
    exact tracks.exact.nodup.sublist (List.filter_sublist.map _)
  have other : ((e.select (some out)).2.1.map PolledEvent.clearError).Nodup := by
    apply List.Nodup.of_map PolledEvent.fd
    have fds : ((e.select (some out)).2.1.map PolledEvent.clearError).map PolledEvent.fd =
        out.map EpollEvent.fd := by
      rw [e.select_some, List.map_map, List.map_map]
      rfl
    rw [fds]
    exact answers.once
  rw [List.perm_ext_iff_of_nodup one other]
  intro event
  rw [tracks.due_iff, watches.due_iff answers room]

/-- A descriptor that is readable and has an error, and one that is ready for what was not asked. -/
theorem selectors_agree_error : ∃ p e, PollSelector.run {} [.add 5 EV_READ, .add 6 EV_READ] = .ok p ∧
    EpollSelector.run {} [.add 5 EV_READ, .add 6 EV_READ] = .ok e ∧ ∃ ready rc events p',
      p.select (p.polled ready) = .ok (rc, events, p') ∧ events = [⟨EV_READ, 5⟩] ∧
        (e.select (some [⟨EPOLLIN ||| EPOLLERR, 5⟩])).2.1 = [⟨EV_READ ||| EV_ERROR, 5⟩] := by
  have accepted : AcceptedCalls (fun _ => none) [.add 5 EV_READ, .add 6 EV_READ] :=
    ⟨⟨by decide, rfl⟩, ⟨by decide, rfl⟩, trivial⟩
  obtain ⟨p, e, runs, runs', agree⟩ := selectors_agree [.add 5 EV_READ, .add 6 EV_READ] accepted
  obtain ⟨e', same, watches, size⟩ := EpollSelector.watches_empty.run accepted
  cases runs'.symm.trans same
  let ready (fd : Int) : Readiness := ⟨fd = 5, fd = 6, false, fd = 5, false⟩
  let out : List EpollEvent := [⟨EPOLLIN ||| EPOLLERR, 5⟩]
  have size : e.eventsSize = 10 := size
  have answers : e.Answers ready out := by
    refine ⟨by simp [out], by simp [out, size], ?_, fun _ fd events kept some_ => ?_⟩
    · intro event member
      rw [List.mem_singleton.mp member]
      exact ⟨EPOLLIN, watches 5, by decide, by decide⟩
    · refine ⟨_, List.mem_singleton_self _, ?_⟩
      rw [watches fd] at kept
      by_cases five : fd = 5
      · exact five.symm
      · exfalso
        by_cases six : fd = 6
        · subst six
          cases kept
          exact some_ (by decide)
        · simp [SelectorCall.note, five, six] at kept
  obtain ⟨rc, events, p', selected, perm⟩ := agree ready out answers (by simp [out, size])
  have batch : (e.select (some out)).2.1 = [⟨EV_READ ||| EV_ERROR, 5⟩] := by
    rw [e.select_some]
    decide
  rw [batch] at perm
  exact ⟨p, e, runs, runs', ready, rc, events, p', selected, List.perm_singleton.mp perm, batch⟩

/-! Runs of the calls and of `Select`, with the size that each `epoll_wait` is given. -/
namespace EpollSelector

open Transition

inductive SelectorStep where
  | call (c : SelectorCall)
  | wait (maxevents : Nat) (out : List EpollEvent)
  | failed

/-- A batch that fills the vector, so that others may be left out. -/
def SelectorStep.full : SelectorStep → Bool
  | .wait maxevents out => out.length = maxevents
  | _ => false

inductive Steps (s : EpollSelector) : SelectorStep → EpollSelector → Prop where
  | call {c : SelectorCall} {rc : Int} {t : EpollSelector} : s.call c = .ok (rc, t) → Steps s (.call c) t
  | wait {ready : Int → Readiness} {out : List EpollEvent} : s.Answers ready out →
      Steps s (.wait s.eventsSize out) (s.select (some out)).2.2
  | failed : Steps s .failed (s.select none).2.2

variable {s t : EpollSelector}

theorem call_eventsSize {c : SelectorCall} {rc : Int} (run : s.call c = .ok (rc, t)) :
    t.eventsSize = s.eventsSize := by
  cases c with
  | add fd events =>
    simp only [EpollSelector.call, add] at run
    split at run <;> cases run
    rfl
  | update fd events =>
    simp only [EpollSelector.call, update] at run
    split at run <;> cases run
    rfl
  | remove fd =>
    simp only [EpollSelector.call, remove] at run
    split at run <;> cases run
    rfl

/-- No descriptor is reported that is not registered, and none twice. -/
theorem Answers.length_le {ready : Int → Readiness} {out : List EpollEvent} (h : s.Answers ready out) :
    out.length ≤ s.interest.keys.card := by
  have inside : (out.map EpollEvent.fd).toFinset ⊆ s.interest.keys := by
    intro fd member
    rw [List.mem_toFinset, List.mem_map] at member
    obtain ⟨event, reported, rfl⟩ := member
    obtain ⟨events, kept, -⟩ := h.each event reported
    exact Finmap.mem_keys.mpr (Finmap.mem_of_lookup_eq_some kept)
  have few := Finset.card_le_card inside
  rwa [List.toFinset_card_of_nodup h.once, List.length_map] at few

theorem select_size {out : List EpollEvent} (some_ : 0 < s.eventsSize) :
    (s.select (some out)).2.2.eventsSize =
      if out.length = s.eventsSize then 2 * s.eventsSize else s.eventsSize := by
  cases out with
  | nil => exact (if_neg (Nat.ne_of_lt some_)).symm
  | cons first rest =>
    simp only [select]
    split
    · rename_i full
      rw [if_pos full.symm, full, Nat.mul_comm]
    · rename_i room
      rw [if_neg fun full => room full.symm]

/-- While at most `most` descriptors are registered: the vector has doubled once for each batch that has
filled it, it is never larger than twice as many entries, and so only a few batches are ever cut short. -/
theorem vector_growth (most : Nat) (labels : List SelectorStep)
    (run : Runs Steps (fun s _ => s.interest.keys.card ≤ most) {} labels s) :
    s.eventsSize = 10 * 2 ^ labels.countP SelectorStep.full ∧
    10 * 2 ^ labels.countP SelectorStep.full ≤ max 10 (2 * most) := by
  have both : s.eventsSize = 10 * 2 ^ labels.countP SelectorStep.full ∧
      s.eventsSize ≤ max 10 (2 * most) := by
    induction run with
    | start => exact ⟨rfl, Nat.le_max_left ..⟩
    | @step labels t u a run few taken ih =>
      obtain ⟨size, bound⟩ := ih
      have some_ : 0 < t.eventsSize := by
        rw [size]
        exact Nat.mul_pos (by decide) (Nat.two_pow_pos _)
      rw [List.countP_append, List.countP_singleton]
      cases taken with
      | call called =>
        rw [call_eventsSize called]
        exact ⟨size, bound⟩
      | failed => exact ⟨size, bound⟩
      | @wait ready out answers =>
        have short := answers.length_le
        rw [select_size some_]
        by_cases full : out.length = t.eventsSize
        · have counts : SelectorStep.full (.wait t.eventsSize out) = true := decide_eq_true full
          rw [if_pos full, counts, if_pos rfl, Nat.pow_succ]
          omega
        · have counts : SelectorStep.full (.wait t.eventsSize out) = false := decide_eq_false full
          rw [if_neg full, counts, if_neg Bool.false_ne_true]
          exact ⟨size, bound⟩
  exact ⟨both.1, both.1 ▸ both.2⟩

/-- The descriptors below `n` are asked to be read. -/
def lowest (n : Nat) (fd : Int) : Option Flags := if 0 ≤ fd ∧ fd < n then some EV_READ else none

theorem Watches.lowest_card {n : Nat} (h : t.Watches (lowest n)) : t.interest.keys.card ≤ n := by
  have inside : t.interest.keys ⊆ (Finset.range n).image Nat.cast := by
    intro fd member
    obtain ⟨events, kept⟩ := Finmap.mem_iff.mp (Finmap.mem_keys.mp member)
    rw [h fd, lowest] at kept
    split_ifs at kept with below
    · obtain ⟨m, rfl⟩ := Int.eq_ofNat_of_zero_le below.1
      exact Finset.mem_image_of_mem _ (Finset.mem_range.mpr (Int.ofNat_lt.mp below.2))
    · cases kept
  exact (Finset.card_le_card inside).trans (Finset.card_image_le.trans (Finset.card_range n).le)

theorem adds_run (most n : Nat) (few : n ≤ most) : ∃ t, Runs Steps (fun s _ => s.interest.keys.card ≤ most) {}
    ((List.range n).map fun fd : Nat => .call (.add fd EV_READ)) t ∧ t.Watches (lowest n) ∧
      t.eventsSize = 10 := by
  induction n with
  | zero =>
    refine ⟨{}, .start, fun fd => ?_, rfl⟩
    rw [watches_empty fd, lowest, if_neg (by omega)]
  | succ n ih =>
    obtain ⟨t, run, watches, size⟩ := ih (Nat.le_of_succ_le few)
    have accepted : (SelectorCall.add n EV_READ).Accepted (lowest n) :=
      ⟨Int.natCast_nonneg n, if_neg fun below => absurd below.2 (Int.lt_irrefl _)⟩
    obtain ⟨u, called, watches', size'⟩ := watches.call accepted
    have small := watches.lowest_card.trans (Nat.le_of_succ_le few)
    rw [List.range_succ, List.map_append]
    refine ⟨u, run.step small (.call called), fun fd => ?_, size'.trans size⟩
    rw [watches' fd]
    congr 1
    simp only [SelectorCall.note, lowest]
    split_ifs <;> first | rfl | omega

/-- Ten descriptors are registered, all of them are readable, and the vector is full. -/
theorem vector_growth_full : ∃ s : EpollSelector, ∃ labels,
    Runs Steps (fun s _ => s.interest.keys.card ≤ 10) {} labels s ∧
      labels.countP SelectorStep.full = 1 ∧ s.eventsSize = 20 ∧
      10 * 2 ^ labels.countP SelectorStep.full ≤ max 10 (2 * 10) := by
  obtain ⟨t, run, watches, size⟩ := adds_run 10 10 (Nat.le_refl 10)
  let ready (_ : Int) : Readiness := ⟨true, false, false, false, false⟩
  let out : List EpollEvent := (List.range 10).map fun fd : Nat => ⟨EPOLLIN, fd⟩
  have answers : t.Answers ready out := by
    refine ⟨by decide, by simp [out, size], fun event member => ?_, fun _ fd events kept _ => ?_⟩
    · obtain ⟨fd, inside, rfl⟩ := List.mem_map.mp member
      have below := List.mem_range.mp inside
      have mask : t.interest.lookup (fd : Int) = some EPOLLIN := by
        rw [watches, lowest, if_pos (by omega)]
        rfl
      have readable : EPOLLIN = (⟨true, false, false, false, false⟩ : Readiness).epoll EPOLLIN := by decide
      have some_ : EPOLLIN ≠ 0 := by decide
      exact ⟨EPOLLIN, mask, readable, some_⟩
    · rw [watches, lowest] at kept
      split_ifs at kept with below
      · obtain ⟨n, rfl⟩ := Int.eq_ofNat_of_zero_le below.1
        exact ⟨_, List.mem_map_of_mem (List.mem_range.mpr (by omega)), rfl⟩
      · cases kept
  have waits := Steps.wait answers
  rw [size] at waits
  have whole := run.step watches.lowest_card waits
  obtain ⟨grown, bound⟩ := vector_growth 10 _ whole
  have once : ((List.range 10).map (fun fd : Nat => SelectorStep.call (.add fd EV_READ)) ++
      [SelectorStep.wait 10 out]).countP SelectorStep.full = 1 := by decide
  rw [once] at grown
  exact ⟨_, _, whole, once, grown, bound⟩

end EpollSelector
end Yamq
