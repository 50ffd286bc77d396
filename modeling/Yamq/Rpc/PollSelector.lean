import Yamq.Rpc.Channel
import Yamq.Lib.IndexedArray

/-! `rpc/selector.cpp`: `PollSelector`, which keeps the descriptors it polls in a vector and the index
of each in a map. -/
namespace Yamq

def POLLIN : BitVec 16 := 0x001
def POLLOUT : BitVec 16 := 0x004

structure Pollfd where
  fd : Int
  events : BitVec 16
  revents : BitVec 16 := 0
deriving DecidableEq, Repr

structure PollSelector where
  pollfds : Array Pollfd := #[]
  fdIdxMap : Finmap fun _ : Int => Nat := ∅

/-- What the kernel answers to `poll`: its result and the `revents` of each entry. -/
structure PollResult where
  active : Int
  revents : Nat → BitVec 16

structure PolledEvent where
  revents : Flags
  fd : Int
deriving DecidableEq, Repr

inductive SelectorCall where
  | add (fd : Int) (events : Flags)
  | update (fd : Int) (events : Flags)
  | remove (fd : Int)

/-- The translation that `Add` and `Update` make. -/
def pollEvents (events : Flags) : BitVec 16 :=
  (if EV_READ &&& events ≠ 0 then POLLIN else 0) ||| (if EV_WRITE &&& events ≠ 0 then POLLOUT else 0)

def transEv (revents : BitVec 16) : Flags :=
  (if revents &&& POLLIN ≠ 0 then EV_READ else EV_NONE) |||
    (if revents &&& POLLOUT ≠ 0 then EV_WRITE else EV_NONE)

namespace PollSelector

/-- The loop of `Select`. -/
def activeEvents : List Pollfd → Int → List PolledEvent
  | [], _ => []
  | pfd :: rest, active =>
    if 0 < active then
      if 0 < pfd.revents.toInt then ⟨transEv pfd.revents, pfd.fd⟩ :: activeEvents rest (active - 1)
      else activeEvents rest active
    else []

def select (s : PollSelector) (result : PollResult) :
    Except Fault (Int × List PolledEvent × PollSelector) :=
  let t := { s with pollfds := s.pollfds.mapIdx fun i pfd => { pfd with revents := result.revents i } }
  if result.active < 0 then .error .abort
  else if result.active = 0 then .ok (-1, [], t)
  else .ok (0, activeEvents t.pollfds.toList result.active, t)

def add (s : PollSelector) (fd : Int) (events : Flags) : Int × PollSelector :=
  let pollfds := s.pollfds.push { fd := fd, events := pollEvents events }
  (0, { pollfds := pollfds, fdIdxMap := s.fdIdxMap.insert fd (pollfds.size - 1) })

def update (s : PollSelector) (fd : Int) (events : Flags) : Except Fault (Int × PollSelector) :=
  match s.fdIdxMap.lookup fd with
  | none => .ok (-1, s)
  | some idx =>
    match s.pollfds[idx]? with
    | none => .error .outOfBounds
    | some pfd =>
      .ok (0, { s with pollfds := s.pollfds.setIfInBounds idx { pfd with events := pollEvents events } })

def remove (s : PollSelector) (fd : Int) : Except Fault (Int × PollSelector) :=
  match s.fdIdxMap.lookup fd with
  | none => .ok (-1, s)
  | some idx =>
    match s.pollfds.back? with
    | none => .error .outOfBounds
    | some back =>
      if idx = s.fdIdxMap.keys.card - 1 then
        .ok (0, { pollfds := s.pollfds.pop, fdIdxMap := s.fdIdxMap.erase fd })
      else if idx < s.pollfds.size then
        -- the descriptor changes places with the last one
        .ok (0,
          { pollfds := (s.pollfds.swapIfInBounds (s.pollfds.size - 1) idx).pop
            fdIdxMap := (s.fdIdxMap.insert back.fd idx).erase fd })
      else .error .outOfBounds

def call (s : PollSelector) : SelectorCall → Except Fault (Int × PollSelector)
  | .add fd events => .ok (s.add fd events)
  | .update fd events => s.update fd events
  | .remove fd => s.remove fd

def run (s : PollSelector) : List SelectorCall → Except Fault PollSelector
  | [] => .ok s
  | c :: calls => do
    let (_, t) ← s.call c
    t.run calls

end PollSelector

/-! What the callers have asked for. -/

/-- The events that the last `Add` or `Update` gave for each descriptor that is present. -/
def SelectorCall.note (asked : Int → Option Flags) : SelectorCall → Int → Option Flags
  | .add fd events => fun d => if d = fd then some events else asked d
  | .update fd events => fun d => if d = fd then (asked d).map fun _ => events else asked d
  | .remove fd => fun d => if d = fd then none else asked d

def SelectorCall.fd : SelectorCall → Int
  | .add fd _ => fd
  | .update fd _ => fd
  | .remove fd => fd

theorem note_other (asked : Int → Option Flags) (c : SelectorCall) {d : Int} (other : d ≠ c.fd) :
    c.note asked d = asked d := by
  cases c <;> exact if_neg other

@[simp] theorem note_add (asked : Int → Option Flags) (fd : Int) (events : Flags) :
    (SelectorCall.add fd events).note asked fd = some events := if_pos rfl

@[simp] theorem note_update (asked : Int → Option Flags) (fd : Int) (events : Flags) :
    (SelectorCall.update fd events).note asked fd = (asked fd).map fun _ => events := if_pos rfl

@[simp] theorem note_remove (asked : Int → Option Flags) (fd : Int) :
    (SelectorCall.remove fd).note asked fd = none := if_pos rfl

def askedFor (calls : List SelectorCall) : Int → Option Flags :=
  calls.foldl SelectorCall.note fun _ => none

/-- The descriptor of an `Add` is not present. -/
def SelectorCall.Proper (asked : Int → Option Flags) : SelectorCall → Prop
  | .add fd _ => asked fd = none
  | _ => True

def ProperCalls : (Int → Option Flags) → List SelectorCall → Prop
  | _, [] => True
  | asked, c :: calls => c.Proper asked ∧ ProperCalls (c.note asked) calls

namespace PollSelector
open IndexedArray

/-- The index is exact, and each entry has the events that were last asked for. -/
structure Tracks (s : PollSelector) (asked : Int → Option Flags) : Prop where
  exact : Exact Pollfd.fd s.pollfds s.fdIdxMap
  events : ∀ p ∈ s.pollfds, (asked p.fd).map pollEvents = some p.events
  absent : ∀ fd, s.fdIdxMap.lookup fd = none → asked fd = none

variable {s t : PollSelector} {asked : Int → Option Flags} {fd : Int} {events : Flags}

theorem Tracks.asked_none_iff (h : Tracks s asked) :
    asked fd = none ↔ s.fdIdxMap.lookup fd = none := by
  refine ⟨fun none_ => ?_, h.absent fd⟩
  cases here : s.fdIdxMap.lookup fd with
  | none => rfl
  | some i =>
    obtain ⟨p, at_, rfl⟩ := h.exact.entry here
    have some_ := h.events p (Array.mem_of_getElem? at_)
    rw [none_] at some_
    cases some_

theorem tracks_empty : Tracks {} fun _ => none where
  exact := .empty
  events := by
    intro p mem
    cases Array.not_mem_empty p mem
  absent := fun _ _ => rfl

theorem Tracks.fd_ne (h : Tracks s asked) (none_ : asked fd = none) {p : Pollfd}
    (mem : p ∈ s.pollfds) : p.fd ≠ fd := by
  rintro rfl
  have some_ := h.events p mem
  rw [none_] at some_
  cases some_

theorem Tracks.add (h : Tracks s asked) (new : asked fd = none) :
    Tracks (s.add fd events).2 ((SelectorCall.add fd events).note asked) where
  exact := by
    have absent := h.asked_none_iff.mp new
    have pushed := h.exact.push (e := { fd := fd, events := pollEvents events }) absent
    rw [PollSelector.add, Array.size_push, Nat.add_sub_cancel]
    exact pushed
  events := by
    intro p mem
    rcases Array.mem_push.mp mem with old | rfl
    · rw [note_other asked (.add fd events) (h.fd_ne new old)]
      exact h.events p old
    · rw [note_add, Option.map_some]
  absent := by
    intro d none_
    by_cases same : d = fd
    · rw [same, PollSelector.add, Finmap.lookup_insert] at none_
      cases none_
    · rw [PollSelector.add, Finmap.lookup_insert_of_ne _ same] at none_
      rw [note_other asked (.add fd events) same]
      exact h.absent d none_

theorem update_absent (absent : s.fdIdxMap.lookup fd = none) : s.update fd events = .ok (-1, s) := by
  rw [update, absent]

theorem remove_absent (absent : s.fdIdxMap.lookup fd = none) : s.remove fd = .ok (-1, s) := by
  rw [remove, absent]

/-- A call that finds nothing under its descriptor leaves what was asked for. -/
theorem note_absent (c : SelectorCall) (absent : asked c.fd = none)
    (found : ∀ fd events, c ≠ .add fd events) :
    c.note asked = asked := by
  funext d
  by_cases own : d = c.fd
  · subst own
    cases c with
    | add fd events => exact absurd rfl (found fd events)
    | update fd events =>
      rw [SelectorCall.fd] at absent ⊢
      rw [note_update, absent, Option.map_none]
    | remove fd => exact (note_remove asked fd).trans absent.symm
  · exact note_other asked c own

theorem Tracks.update (h : Tracks s asked) :
    ∃ rc t, s.update fd events = .ok (rc, t) ∧ Tracks t ((SelectorCall.update fd events).note asked) := by
  cases here : s.fdIdxMap.lookup fd with
  | none =>
    refine ⟨-1, s, update_absent here, ?_⟩
    rw [note_absent (.update fd events) (h.absent fd here) (by rintro _ _ ⟨⟩)]
    exact h
  | some idx =>
    obtain ⟨p, at_, rfl⟩ := h.exact.entry here
    have done : s.update p.fd events = .ok (0, { s with
        pollfds := s.pollfds.setIfInBounds idx { p with events := pollEvents events } }) := by
      rw [PollSelector.update, here]
      dsimp only
      rw [at_]
    refine ⟨0, _, done, ?_, ?_, ?_⟩
    · exact h.exact.set (e := { p with events := pollEvents events }) here
    · intro q mem
      obtain ⟨j, there⟩ := Array.getElem?_of_mem mem
      by_cases own : idx = j
      · subst own
        rw [Array.getElem?_setIfInBounds_self_of_lt (h.exact.inside here)] at there
        cases there
        have some_ := h.events p (Array.mem_of_getElem? at_)
        cases old : asked p.fd with
        | none =>
          rw [old] at some_
          cases some_
        | some _ => simp [old]
      · rw [Array.getElem?_setIfInBounds_ne own] at there
        have other : q.fd ≠ p.fd := by
          intro same
          have found := h.exact.lookup there
          rw [same, here] at found
          exact own (Option.some.inj found)
        rw [note_other asked (.update p.fd events) other]
        exact h.events q (Array.mem_of_getElem? there)
    · intro d none_
      have gone := h.absent d none_
      by_cases own : d = p.fd
      · rw [own, note_update, ← own, gone, Option.map_none]
      · rw [note_other asked (.update p.fd events) own]
        exact gone

theorem Tracks.removed (h : Tracks s asked) (exact : Exact Pollfd.fd t.pollfds t.fdIdxMap)
    (kept : ∀ p ∈ t.pollfds, p ∈ s.pollfds) (gone : t.fdIdxMap.lookup fd = none)
    (others : ∀ d, d ≠ fd → t.fdIdxMap.lookup d = none → s.fdIdxMap.lookup d = none) :
    Tracks t ((SelectorCall.remove fd).note asked) where
  exact := exact
  events := by
    intro p mem
    have other : p.fd ≠ fd := by
      rintro rfl
      obtain ⟨i, at_⟩ := Array.getElem?_of_mem mem
      rw [exact.lookup at_] at gone
      cases gone
    rw [note_other asked (.remove fd) other]
    exact h.events p (kept p mem)
  absent := by
    intro d none_
    by_cases own : d = fd
    · rw [own, note_remove]
    · rw [note_other asked (.remove fd) own]
      exact h.absent d (others d own none_)

theorem Tracks.remove (h : Tracks s asked) :
    ∃ rc t, s.remove fd = .ok (rc, t) ∧ Tracks t ((SelectorCall.remove fd).note asked) := by
  cases here : s.fdIdxMap.lookup fd with
  | none =>
    refine ⟨-1, s, remove_absent here, ?_⟩
    rw [note_absent (.remove fd) (h.absent fd here) (by rintro _ _ ⟨⟩)]
    exact h
  | some idx =>
    have inside := h.exact.inside here
    obtain ⟨back, last⟩ : ∃ back, s.pollfds.back? = some back := by
      rw [Array.back?_eq_getElem?]
      exact ⟨_, Array.getElem?_eq_getElem (by omega)⟩
    by_cases final : idx = s.pollfds.size - 1
    · refine ⟨0, { pollfds := s.pollfds.pop, fdIdxMap := s.fdIdxMap.erase fd }, ?_,
        h.removed (h.exact.pop (final ▸ here)) (fun _ => mem_of_mem_pop)
          (Finmap.lookup_erase fd _) fun d other none_ => ?_⟩
      · rw [PollSelector.remove, here]
        dsimp only
        rw [last, h.exact.card]
        exact if_pos final
      · rw [Finmap.lookup_erase_ne other] at none_
        exact none_
    · refine ⟨0, { pollfds := (s.pollfds.swapIfInBounds (s.pollfds.size - 1) idx).pop
                   fdIdxMap := (s.fdIdxMap.insert back.fd idx).erase fd }, ?_,
        h.removed (h.exact.swapRemove here last final)
          (fun _ => mem_of_mem_swap_pop last inside final)
          (Finmap.lookup_erase fd _) fun d other none_ => ?_⟩
      · rw [PollSelector.remove, here]
        dsimp only
        rw [last, h.exact.card]
        exact (if_neg final).trans (if_pos inside)
      · rw [Finmap.lookup_erase_ne other] at none_
        by_cases moved : d = back.fd
        · rw [moved, Finmap.lookup_insert] at none_
          cases none_
        · rw [Finmap.lookup_insert_of_ne _ moved] at none_
          exact none_

theorem Tracks.call (h : Tracks s asked) {c : SelectorCall} (proper : c.Proper asked) :
    ∃ rc t, s.call c = .ok (rc, t) ∧ Tracks t (c.note asked) := by
  cases c with
  | add fd events => exact ⟨_, _, rfl, h.add proper⟩
  | update fd events => exact h.update
  | remove fd => exact h.remove

theorem Tracks.run (h : Tracks s asked) {calls : List SelectorCall} (proper : ProperCalls asked calls) :
    ∃ t, s.run calls = .ok t ∧ Tracks t (calls.foldl SelectorCall.note asked) := by
  induction calls generalizing s asked with
  | nil => exact ⟨s, rfl, h⟩
  | cons c calls ih =>
    obtain ⟨rc, t, called, tracks⟩ := h.call proper.1
    obtain ⟨u, rest, end_⟩ := ih tracks proper.2
    refine ⟨u, ?_, end_⟩
    rw [PollSelector.run, called]
    exact rest

/-- `Select` only writes the `revents`. -/
theorem Tracks.select (h : Tracks s asked) {result : PollResult} {rc : Int} {events : List PolledEvent}
    (run : s.select result = .ok (rc, events, t)) : Tracks t asked := by
  have written : t = { s with
      pollfds := s.pollfds.mapIdx fun i pfd => { pfd with revents := result.revents i } } := by
    rw [PollSelector.select] at run
    dsimp only at run
    split at run
    · cases run
    · split at run <;> cases run <;> rfl
  subst written
  refine ⟨h.exact.congr fun i => ?_, ?_, h.absent⟩
  · rw [Array.getElem?_mapIdx, Option.map_map]
    rfl
  · intro p mem
    obtain ⟨i, at_⟩ := Array.getElem?_of_mem mem
    rw [Array.getElem?_mapIdx] at at_
    obtain ⟨q, old, rfl⟩ := Option.map_eq_some_iff.mp at_
    exact h.events q (Array.mem_of_getElem? old)

/-- After every sequence of calls the index is exact, the events are those of the last `Add` or
`Update`, and a call for an absent descriptor does nothing. -/
theorem index_exact (calls : List SelectorCall) (proper : ProperCalls (fun _ => none) calls) :
    ∃ s, PollSelector.run {} calls = .ok s ∧
      s.fdIdxMap.keys.card = s.pollfds.size ∧
      (∀ fd idx, s.fdIdxMap.lookup fd = some idx → ∃ (inside : idx < s.pollfds.size) (events : Flags),
        (s.pollfds[idx]).fd = fd ∧ askedFor calls fd = some events ∧
          (s.pollfds[idx]).events = pollEvents events) ∧
      (∀ idx (inside : idx < s.pollfds.size), s.fdIdxMap.lookup s.pollfds[idx].fd = some idx) ∧
      ∀ fd, (askedFor calls fd = none ↔ s.fdIdxMap.lookup fd = none) ∧ (askedFor calls fd = none →
        (∀ events, s.update fd events = .ok (-1, s)) ∧ s.remove fd = .ok (-1, s)) := by
  obtain ⟨s, run, tracks⟩ := tracks_empty.run proper
  refine ⟨s, run, tracks.exact.card, ?_, ?_, ?_⟩
  · intro fd idx here
    obtain ⟨p, at_, rfl⟩ := tracks.exact.entry here
    obtain ⟨inside, rfl⟩ := Array.getElem?_eq_some_iff.mp at_
    obtain ⟨events, asked, translated⟩ :=
      Option.map_eq_some_iff.mp (tracks.events s.pollfds[idx] (Array.getElem_mem inside))
    exact ⟨inside, events, rfl, asked, translated.symm⟩
  · intro idx inside
    exact tracks.exact.lookup (Array.getElem?_eq_getElem inside)
  · intro fd
    refine ⟨tracks.asked_none_iff, fun none_ => ?_⟩
    have absent := tracks.asked_none_iff.mp none_
    exact ⟨fun _ => update_absent absent, remove_absent absent⟩

/-- The last, a middle, an absent and the only descriptor are removed. -/
theorem index_exact_removals :
    ∃ s, PollSelector.run {} [.add 5 EV_READ, .add 6 EV_READ, .add 7 EV_WRITE, .update 6 EV_WRITE,
        .remove 7, .remove 5, .remove 9] = .ok s ∧
      s.fdIdxMap.keys.card = s.pollfds.size ∧ ∃ idx events, s.fdIdxMap.lookup 6 = some idx ∧
        askedFor [.add 5 EV_READ, .add 6 EV_READ, .add 7 EV_WRITE, .update 6 EV_WRITE,
          .remove 7, .remove 5, .remove 9] 6 = some events := by
  obtain ⟨s, run, size, -, -, absent⟩ := index_exact
    [.add 5 EV_READ, .add 6 EV_READ, .add 7 EV_WRITE, .update 6 EV_WRITE,
      .remove 7, .remove 5, .remove 9]
    (by simp [ProperCalls, SelectorCall.Proper, SelectorCall.note])
  refine ⟨s, run, size, ?_⟩
  have present : askedFor [.add 5 EV_READ, .add 6 EV_READ, .add 7 EV_WRITE, .update 6 EV_WRITE,
      .remove 7, .remove 5, .remove 9] 6 = some EV_WRITE := by
    simp [askedFor, SelectorCall.note]
  cases here : s.fdIdxMap.lookup 6 with
  | none =>
    rw [(absent 6).1.mpr here] at present
    cases present
  | some idx => exact ⟨idx, EV_WRITE, rfl, present⟩

end PollSelector
end Yamq
