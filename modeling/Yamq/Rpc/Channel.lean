import Yamq.Machine

/-! `rpc/channel.h`, `rpc/channel.cpp`, the registration half of `rpc/event_dispatcher.cpp` and
`rpc/epoll_selector.cpp`: which descriptors a loop watches, and for what. -/
namespace Yamq

abbrev Flags := BitVec 32

def EV_NONE : Flags := 0x00
def EV_READ : Flags := 0x01
def EV_WRITE : Flags := 0x02
def EV_ERROR : Flags := 0x08
def EV_CLOSE : Flags := 0x10

def EPOLLIN : Flags := 0x001
def EPOLLOUT : Flags := 0x004

structure Channel where
  /-- the object's identity, `this` -/
  self : Nat
  fd : Int
  events : Flags := EV_NONE
  attached : Bool := false
deriving DecidableEq, Repr

/-- The epoll instance of a loop and its `_channels`. -/
structure Registrations where
  interest : Int → Option Flags
  channels : Int → Option Nat

/-- The translation that `EpollSelector::Add` and `Update` make. -/
def epollEvents (events : Flags) : Flags :=
  (if EV_READ &&& events ≠ 0 then EPOLLIN else 0) |||
    (if EV_WRITE &&& events ≠ 0 then EPOLLOUT else 0)

namespace Registrations

def watch (r : Registrations) (fd : Int) (events : Option Flags) : Registrations :=
  { r with interest := fun d => if d = fd then events else r.interest d }

/-! `epoll_ctl` fails on a descriptor it has, or that is none, when it adds, and on one it lacks
otherwise. -/

def add (r : Registrations) (fd : Int) (events : Flags) : Except Fault Registrations :=
  if 0 ≤ fd ∧ r.interest fd = none then .ok (r.watch fd (some (epollEvents events))) else .error .abort

def update (r : Registrations) (fd : Int) (events : Flags) : Except Fault Registrations :=
  if r.interest fd = none then .error .abort else .ok (r.watch fd (some (epollEvents events)))

def remove (r : Registrations) (fd : Int) : Except Fault Registrations :=
  if r.interest fd = none then .error .abort else .ok (r.watch fd none)

/-- `_channels.insert` keeps an entry that is there. -/
def registerChannel (r : Registrations) (c : Channel) : Except Fault Registrations := do
  let r ← r.add c.fd c.events
  return { r with channels := fun d => if d = c.fd then (r.channels d).or (some c.self) else r.channels d }

def updateChannel (r : Registrations) (c : Channel) : Except Fault Registrations :=
  r.update c.fd c.events

def removeChannel (r : Registrations) (c : Channel) : Except Fault Registrations :=
  match r.channels c.fd with
  | none => .error .wildPointer
  | some found =>
    if found = c.self then do
      let r ← r.remove c.fd
      return { r with channels := fun d => if d = c.fd then none else r.channels d }
    else .error .assertion

theorem removeChannel_ok {r r' : Registrations} {c : Channel} (run : r.removeChannel c = .ok r') :
    (∀ fd, r'.channels fd = if fd = c.fd then none else r.channels fd) ∧
      ∀ fd, r'.interest fd = if fd = c.fd then none else r.interest fd := by
  unfold removeChannel at run
  split at run
  · cases run
  · split at run
    · rw [bind_eq_ok] at run
      obtain ⟨r1, removed, run⟩ := run
      unfold remove at removed
      split at removed
      · cases removed
      · cases removed
        cases run
        exact ⟨fun _ => rfl, fun _ => rfl⟩
    · cases run

theorem registerChannel_ok {r r' : Registrations} {c : Channel} (run : r.registerChannel c = .ok r')
    (fd : Int) : r'.channels fd = r.channels fd ∨ fd = c.fd ∧ r'.channels fd = some c.self := by
  rw [registerChannel, bind_eq_ok] at run
  obtain ⟨r1, added, run⟩ := run
  cases run
  unfold add at added
  split at added
  · cases added
    by_cases here : fd = c.fd
    · subst here
      cases old : r.channels c.fd <;> simp [watch, old]
    · simp [watch, here]
  · cases added

end Registrations

namespace Channel

def update (c : Channel) (r : Registrations) : Except Fault (Channel × Registrations) :=
  if c.attached then do return (c, ← r.updateChannel c)
  else do return ({ c with attached := true }, ← r.registerChannel c)

def setEvents (c : Channel) (r : Registrations) (events : Flags) :
    Except Fault (Channel × Registrations) :=
  { c with events := events }.update r

def disableWrite (c : Channel) (r : Registrations) : Except Fault (Channel × Registrations) :=
  c.setEvents r (c.events &&& ~~~EV_WRITE)

def enableWrite (c : Channel) (r : Registrations) : Except Fault (Channel × Registrations) :=
  c.setEvents r (c.events ||| EV_WRITE)

def enableRead (c : Channel) (r : Registrations) : Except Fault (Channel × Registrations) :=
  c.setEvents r (c.events ||| EV_READ)

def isWritable (c : Channel) : Bool := c.events &&& EV_WRITE != 0

/-- An attached channel whose interest is what epoll watches. -/
structure Watched (c : Channel) (r : Registrations) : Prop where
  attached : c.attached = true
  interest : r.interest c.fd = some (epollEvents c.events)

theorem watched_setEvents {c : Channel} {r : Registrations} (h : c.Watched r) (events : Flags) :
    ∃ r', c.setEvents r events = .ok ({ c with events := events }, r') ∧
      Watched { c with events := events } r' := by
  have known : r.interest c.fd ≠ none := by simp [h.interest]
  refine ⟨r.watch c.fd (some (epollEvents events)), ?_, h.attached, ?_⟩
  · simp [setEvents, update, h.attached, Registrations.updateChannel, Registrations.update, known]
  · simp [Registrations.watch]

theorem setEvents_fresh {c : Channel} {r : Registrations} (valid : 0 ≤ c.fd)
    (fresh : c.attached = false) (free : r.interest c.fd = none) (events : Flags) :
    ∃ r', c.setEvents r events = .ok ({ c with events := events, attached := true }, r') ∧
      Watched { c with events := events, attached := true } r' := by
  simp only [setEvents, update, fresh, Registrations.registerChannel, Registrations.add, free, valid,
    and_self, if_true, ok_bind, pure_ok, Bool.false_eq_true, if_false]
  exact ⟨_, rfl, rfl, if_pos rfl⟩

/-! The two changes of the write interest. -/

theorem isWritable_enable (c : Channel) :
    isWritable { c with events := c.events ||| EV_WRITE } = true := by
  have bit : ((c.events ||| EV_WRITE) &&& EV_WRITE).getLsbD 1 = true := by simp [EV_WRITE]
  simp only [isWritable, bne_iff_ne]
  intro none
  rw [none] at bit
  cases bit

theorem isWritable_disable (c : Channel) :
    isWritable { c with events := c.events &&& ~~~EV_WRITE } = false := by
  simp [isWritable, BitVec.and_assoc]

theorem isWritable_read (c : Channel) :
    isWritable { c with events := c.events ||| EV_READ } = c.isWritable := by
  have same : (c.events ||| EV_READ) &&& EV_WRITE = c.events &&& EV_WRITE := by
    have apart : EV_READ &&& EV_WRITE = 0 := by decide
    rw [BitVec.and_comm, BitVec.and_or_distrib_left, BitVec.and_comm EV_WRITE EV_READ, apart,
      BitVec.and_comm]
    simp
  rw [isWritable, isWritable, same]

/-- epoll watches for writability exactly when the channel asks for it. -/
theorem watches_write (c : Channel) : epollEvents c.events &&& EPOLLOUT ≠ 0 ↔ c.isWritable = true := by
  rw [isWritable, bne_iff_ne, BitVec.and_comm c.events]
  unfold epollEvents
  by_cases read : EV_READ &&& c.events = 0 <;> by_cases write : EV_WRITE &&& c.events = 0 <;>
    simp only [read, write, ne_eq, not_true, not_false_iff, if_true, if_false] <;> decide

end Channel
end Yamq
