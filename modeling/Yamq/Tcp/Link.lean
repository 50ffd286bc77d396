import Yamq.Lib.Transition
import Yamq.Tcp.Outgoing
import Yamq.Rpc.ByteFifo

/-! Two connections that are the ends of one socket pair, with the kernel's byte streams between
them: `send`, `HandleWrite` and `HandleRead` on both sides, in any order, and message callbacks that
take bytes from the input buffers. -/
namespace Yamq

open Transition

namespace IoBuffer

/-- `sizeof extrabuf` -/
def extrabuf : Nat := 65536

/-- The most that one `readv` of `Retrieve` stores. -/
def readvRoom (b : IoBuffer) : Nat :=
  if toSize b.writableBytes < extrabuf then toSize b.writableBytes + extrabuf
  else toSize b.writableBytes

theorem readvRoom_pos (b : IoBuffer) : 0 < b.readvRoom := by
  unfold readvRoom
  have some_ : 0 < extrabuf := by decide
  by_cases narrow : toSize b.writableBytes < extrabuf
  · rw [if_pos narrow]
    omega
  · rw [if_neg narrow]
    omega

theorem seek_buf {b c : IoBuffer} {offset : Int} (run : b.seek offset = .ok c) : c.buf = b.buf := by
  unfold seek at run
  split at run
  · split at run
    · obtain ⟨_, _, run⟩ := bind_eq_ok.mp run
      cases run
      rfl
    · cases run
      rfl
  · cases run

theorem get_buf {b c : IoBuffer} {size : Nat} {data : Bytes} (run : b.get size = .ok (data, c)) :
    c.buf = b.buf := by
  by_cases none : b.readableBytes ≤ 0
  · rw [get, if_pos none] at run
    cases run
    rfl
  · rw [get, if_neg none] at run
    obtain ⟨_, _, run⟩ := bind_eq_ok.mp run
    obtain ⟨_, sought, run⟩ := bind_eq_ok.mp run
    cases run
    exact seek_buf sought

theorem retrieve_count {b c : IoBuffer} {data : Bytes} {n : Nat}
    (run : b.retrieve (.bytes data) = .ok (n, c)) : n = data.length := by
  rw [retrieve, bind_eq_ok] at run
  obtain ⟨buf, _, run⟩ := run
  split at run
  · obtain ⟨_, _, run⟩ := bind_eq_ok.mp run
    cases run
    rfl
  · obtain ⟨_, _, run⟩ := bind_eq_ok.mp run
    obtain ⟨_, _, run⟩ := bind_eq_ok.mp run
    cases run
    rfl

theorem get_small {b : IoBuffer} (h : b.Small) (size : Nat) :
    ∃ c, b.get size = .ok (b.contents.take size, c) ∧ c.Small ∧ c.contents = b.contents.drop size := by
  obtain ⟨c, run, layout, contents⟩ := get_spec h.toLayout size
  exact ⟨c, run, ⟨layout, by rw [get_buf run]; exact h.size⟩, contents⟩

end IoBuffer

namespace Endpoint

/-- Whether the loop is asked to read. -/
def isReading (e : Endpoint) : Bool := e.conn.events &&& EV_READ != 0

/-- What goes out leaves the incoming half alone, and the kernel forgets nothing. -/
structure Outward (e e' : Endpoint) (taken : Bytes) : Prop where
  input : e'.conn.inputBuf = e.conn.inputBuf
  reading : e'.isReading = e.isReading
  accepted : e'.accepted = e.accepted ++ taken
  watched : e'.conn.Watched e'.regs

variable {e e' : Endpoint}

theorem Outward.refl (watched : e.conn.Watched e.regs) : Outward e e [] :=
  ⟨rfl, rfl, (List.append_nil _).symm, watched⟩

theorem read_enable (events : Flags) : (events ||| EV_WRITE) &&& EV_READ = events &&& EV_READ := by
  have apart : EV_READ &&& EV_WRITE = 0 := by decide
  rw [BitVec.and_comm, BitVec.and_or_distrib_left, apart, BitVec.and_comm]
  simp

theorem read_disable (events : Flags) : (events &&& ~~~EV_WRITE) &&& EV_READ = events &&& EV_READ := by
  have inside : ~~~EV_WRITE &&& EV_READ = EV_READ := by decide
  rw [BitVec.and_assoc, inside]

theorem buffer_outward {remaining : Bytes} (watched : e.conn.Watched e.regs)
    (run : e.buffer remaining = .ok e') : Outward e e' [] := by
  unfold buffer at run
  split at run
  · cases run
    exact .refl watched
  · obtain ⟨out, _, run⟩ := bind_eq_ok.mp run
    by_cases flag : e.conn.isWritable = true
    · rw [if_pos flag] at run
      cases run
      exact ⟨rfl, rfl, (List.append_nil _).symm, watched⟩
    · rw [if_neg flag] at run
      obtain ⟨channel, set, run⟩ := bind_eq_ok.mp run
      obtain ⟨regs, set', watched'⟩ := Channel.watched_setEvents watched (e.conn.events ||| EV_WRITE)
      cases set.symm.trans set'
      cases run
      exact ⟨rfl, by simp only [isReading, setChannel, read_enable], (List.append_nil _).symm, watched'⟩

theorem send_outward {data : Bytes} {result : SendResult} (watched : e.conn.Watched e.regs)
    (run : e.send data result = .ok e') : ∃ taken, Outward e e' taken := by
  unfold send at run
  split at run
  · cases run
    exact ⟨[], .refl watched⟩
  · split at run
    · cases result with
      | takes room =>
        have kept := @buffer_outward { e with accepted := e.accepted ++ data.take room } e' _ watched run
        exact ⟨data.take room, kept.input, kept.reading, kept.accepted.trans (List.append_nil _),
          kept.watched⟩
      | fails errno =>
        simp only at run
        split at run
        · cases run
        · exact ⟨[], buffer_outward watched run⟩
    · exact ⟨[], buffer_outward watched run⟩

theorem Invariant.setInput {given : Bytes} (h : e.Invariant given) (input : IoBuffer) :
    Invariant { e with conn := { e.conn with inputBuf := input } } given :=
  ⟨⟨h.stream, h.flag, h.watched⟩, h.status, h.small⟩

/-- What the kernel takes of the output buffer. -/
def written (e : Endpoint) : SendResult → Bytes
  | .takes room => e.conn.outputBuf.contents.take room
  | .fails _ => []

theorem handleWrite_outward {result : SendResult} (watched : e.conn.Watched e.regs)
    (layout : e.conn.outputBuf.Layout) (run : e.handleWrite result = .ok e') :
    Outward e e' (e.written result) := by
  rw [handleWrite, IoBuffer.load_contents layout, ok_bind] at run
  cases result with
  | fails errno =>
    cases run
    exact .refl watched
  | takes room =>
    by_cases none : e.conn.outputBuf.contents.take room = []
    · simp only [none, if_true] at run
      cases run
      rw [written, none]
      exact .refl watched
    · simp only [none, if_false, drain, bind_eq_ok] at run
      obtain ⟨out, _, run⟩ := run
      split at run
      · obtain ⟨channel, set, run⟩ := bind_eq_ok.mp run
        obtain ⟨regs, set', watched'⟩ :=
          Channel.watched_setEvents watched (e.conn.events &&& ~~~EV_WRITE)
        cases set.symm.trans set'
        cases run
        exact ⟨rfl, by simp only [isReading, setChannel, read_disable], rfl, watched'⟩
      · cases run
        exact ⟨rfl, rfl, rfl, watched⟩

end Endpoint

inductive Side where
  | localSide | remoteSide
deriving DecidableEq, Repr

def Side.other : Side → Side
  | .localSide => .remoteSide
  | .remoteSide => .localSide

/-- A connection with the bytes handed to its `send`, the number of those that its `readv` has stored,
and what its message callback has taken from the input buffer. -/
structure LinkEnd where
  endpoint : Endpoint
  given : Bytes := []
  stored : Nat := 0
  consumed : Bytes := []

namespace LinkEnd

def input (p : LinkEnd) : IoBuffer := p.endpoint.conn.inputBuf

def output (p : LinkEnd) : IoBuffer := p.endpoint.conn.outputBuf

/-- How often its bytes have gone from one place to the next. -/
def progress (p : LinkEnd) : Nat := p.endpoint.accepted.length + p.stored + p.consumed.length

def setInput (p : LinkEnd) (input : IoBuffer) : LinkEnd :=
  { p with endpoint := { p.endpoint with conn := { p.endpoint.conn with inputBuf := input } } }

end LinkEnd

abbrev Link := Side → LinkEnd

inductive LinkAct where
  | send (side : Side) (data : Bytes) (result : SendResult)
  | handleWrite (side : Side) (result : SendResult)
  | handleRead (side : Side) (count : Nat)   -- `readv` stores `count` bytes
  | get (side : Side) (size : Nat)           -- by the message callback
deriving DecidableEq

namespace LinkAct

def side : LinkAct → Side
  | .send s .. => s
  | .handleWrite s _ => s
  | .handleRead s _ => s
  | .get s _ => s

/-- Whether bytes that wait somewhere go on. -/
def transfers : LinkAct → Bool
  | .send .. => false
  | .handleWrite _ (.takes room) => decide (0 < room)
  | .handleWrite _ (.fails _) => false
  | .handleRead .. => true
  | .get .. => true

end LinkAct

namespace Link

/-- The bytes on their way to a side. -/
def flight (l : Link) (s : Side) : Bytes := (l s.other).endpoint.accepted.drop (l s).stored

/-- The loop runs a handler when `epoll_wait` reports its event: there is room and the channel asks
for it, or there are bytes to read. -/
def Ready (l : Link) : LinkAct → Prop
  | .send .. => True
  | .handleWrite s _ => (l s).endpoint.conn.isWritable = true
  | .handleRead s count => (l s).endpoint.isReading = true ∧ 0 < count ∧
      count ≤ (l.flight s).length ∧ count ≤ (l s).input.readvRoom
  | .get s size => 0 < size ∧ 0 < (l s).input.readableBytes

instance (l : Link) : DecidablePred l.Ready
  | .send .. => inferInstanceAs (Decidable True)
  | .handleWrite .. => inferInstanceAs (Decidable (_ = _))
  | .handleRead .. => inferInstanceAs (Decidable (_ ∧ _ ∧ _ ∧ _))
  | .get .. => inferInstanceAs (Decidable (_ ∧ _))

def step (l : Link) : LinkAct → Except Fault Link
  | .send s data result => do
    let e ← (l s).endpoint.send data result
    return Function.update l s { l s with endpoint := e, given := (l s).given ++ data }
  | .handleWrite s result => do
    let e ← (l s).endpoint.handleWrite result
    return Function.update l s { l s with endpoint := e }
  | .handleRead s count => do
    let (n, input) ← (l s).input.retrieve (.bytes ((l.flight s).take count))
    return Function.update l s { (l s).setInput input with stored := (l s).stored + n }
  | .get s size => do
    let (data, input) ← (l s).input.get size
    return Function.update l s { (l s).setInput input with consumed := (l s).consumed ++ data }

/-- `::send` ends the process on these errors. -/
def Breaks : LinkAct → Prop
  | .send _ _ result => Endpoint.SendFails result
  | .handleWrite .. => False
  | .handleRead .. => False
  | .get .. => False

instance : DecidablePred Breaks
  | .send .. => inferInstanceAs (Decidable (Endpoint.SendFails _))
  | .handleWrite .. => inferInstanceAs (Decidable False)
  | .handleRead .. => inferInstanceAs (Decidable False)
  | .get .. => inferInstanceAs (Decidable False)

/-- The bytes that a step hands to a buffer fit its `int` indices. -/
def Fits (l : Link) : LinkAct → Prop
  | .send s data result => (l s).endpoint.StepFits (.send data result)
  | .handleWrite .. => True
  | .handleRead s count => (l s).input.PutFits count
  | .get .. => True

instance (l : Link) : DecidablePred l.Fits
  | .send .. => inferInstanceAs (Decidable (_ = _ ∨ _))
  | .handleWrite .. => inferInstanceAs (Decidable True)
  | .handleRead .. => inferInstanceAs (Decidable (IoBuffer.PutFits _ _))
  | .get .. => inferInstanceAs (Decidable True)

/-- In both directions the bytes given are taken, held or on their way, in order, and the write
interest is set exactly when bytes wait for it. -/
def Intact (l : Link) : Prop := ∀ s : Side,
  (l s).consumed ++ (l s).input.contents ++ l.flight s ++ (l s.other).output.contents =
      (l s.other).given ∧
    ((l s).endpoint.conn.isWritable = true ↔ (l s).output.contents ≠ [])

/-- Two new connections. -/
structure Opened (l : Link) : Prop where
  established : ∀ s, (l s).endpoint.Established
  reading : ∀ s, (l s).endpoint.isReading = true
  input : ∀ s, (l s).input = .new IoBuffer.kInitialSize
  given : ∀ s, (l s).given = []
  stored : ∀ s, (l s).stored = 0
  consumed : ∀ s, (l s).consumed = []

def Steps (l : Link) (a : LinkAct) (l' : Link) : Prop := l.step a = .ok l'

structure Allowed (l : Link) (a : LinkAct) : Prop where
  ready : l.Ready a
  alive : ¬ Breaks a
  fits : l.Fits a

/-- What every run keeps of one end, when the kernel has accepted `sent` from the other. -/
structure Sound (p : LinkEnd) (sent : Bytes) : Prop where
  outgoing : p.endpoint.Invariant p.given
  reading : p.endpoint.isReading = true
  small : p.input.Small
  stored : p.stored ≤ sent.length
  taken : p.consumed ++ p.input.contents = sent.take p.stored

def Invariant (l : Link) : Prop := ∀ s : Side, Sound (l s) (l s.other).endpoint.accepted

theorem Opened.invariant {l : Link} (h : l.Opened) : l.Invariant := by
  intro s
  refine ⟨?_, h.reading s, ?_, ?_, ?_⟩
  · rw [h.given s]
    exact (h.established s).invariant
  · rw [h.input s]
    exact IoBuffer.new_small _ (by decide)
  · rw [h.stored s]
    exact Nat.zero_le _
  · rw [h.consumed s, h.input s, h.stored s, IoBuffer.new_contents]
    rfl

theorem Sound.grow {p : LinkEnd} {sent sent' : Bytes} (h : Sound p sent) (more : sent <+: sent') :
    Sound p sent' := by
  refine ⟨h.outgoing, h.reading, h.small, Nat.le_trans h.stored more.length_le, ?_⟩
  obtain ⟨behind, rfl⟩ := more
  rw [List.take_append_of_le_length h.stored]
  exact h.taken

theorem cases_other (s t : Side) : t = s ∨ t = s.other := by
  cases s <;> cases t <;> simp [Side.other]

@[simp] theorem other_other (s : Side) : s.other.other = s := by
  cases s <;> rfl

theorem other_ne (s : Side) : s.other ≠ s := by
  cases s <;> nofun

variable {l l' : Link} {s : Side}

theorem Invariant.intact (h : l.Invariant) : l.Intact := by
  intro s
  refine ⟨?_, (h s).outgoing.flag⟩
  rw [(h s).taken, flight, List.take_append_drop]
  exact (h s.other).outgoing.stream

/-- A step changes one end, and goes `moved` places further. -/
structure Advance (l : Link) (s : Side) (p : LinkEnd) (moved : Nat) : Prop where
  sound : Sound p (l s.other).endpoint.accepted
  accepted : (l s).endpoint.accepted <+: p.endpoint.accepted
  given : (l s).given <+: p.given
  progress : (l s).progress + moved ≤ p.progress

theorem Advance.invariant {p : LinkEnd} {moved : Nat} (h : l.Invariant) (step : Advance l s p moved) :
    Invariant (Function.update l s p) := by
  intro t
  rcases cases_other s t with rfl | rfl
  · rw [Function.update_self, Function.update_of_ne (other_ne t)]
    exact step.sound
  · have old := h s.other
    rw [other_other] at old
    rw [Function.update_of_ne (other_ne s), other_other, Function.update_self]
    exact old.grow step.accepted

section
variable {data : Bytes} {result : SendResult}

theorem send_advance (old : Sound (l s) (l s.other).endpoint.accepted)
    (alive : ¬ Breaks (.send s data result)) (fits : l.Fits (.send s data result)) :
    ∃ e, l.step (.send s data result) =
        .ok (Function.update l s { l s with endpoint := e, given := (l s).given ++ data }) ∧
      e.conn.inputBuf = (l s).input ∧
      Advance l s { l s with endpoint := e, given := (l s).given ++ data } 0 := by
  obtain ⟨e, run, kept⟩ := Endpoint.step_spec old.outgoing (.send data result) alive fits
  obtain ⟨taken, out⟩ := Endpoint.send_outward old.outgoing.watched run
  refine ⟨e, ?_, out.input, ⟨kept, out.reading.trans old.reading, ?_, old.stored, ?_⟩, ?_,
    List.prefix_append .., ?_⟩
  · have sent : (l s).endpoint.send data result = .ok e := run
    rw [step, sent]
    rfl
  · rw [LinkEnd.input, out.input]
    exact old.small
  · rw [LinkEnd.input, out.input]
    exact old.taken
  · rw [out.accepted]
    exact List.prefix_append ..
  · simp only [LinkEnd.progress, out.accepted, List.length_append]
    omega

theorem handleWrite_advance (old : Sound (l s) (l s.other).endpoint.accepted)
    (ready : l.Ready (.handleWrite s result)) :
    ∃ e, l.step (.handleWrite s result) = .ok (Function.update l s { l s with endpoint := e }) ∧
      e.conn.inputBuf = (l s).input ∧
      Advance l s { l s with endpoint := e }
        (if (LinkAct.handleWrite s result).transfers then 1 else 0) := by
  obtain ⟨e, run, kept⟩ := Endpoint.handleWrite_spec old.outgoing result
  have out := Endpoint.handleWrite_outward old.outgoing.watched old.outgoing.small.toLayout run
  have waiting : (l s).output.contents ≠ [] := old.outgoing.flag.mp ready
  have moved : (if (LinkAct.handleWrite s result).transfers then 1 else 0) ≤
      ((l s).endpoint.written result).length := by
    cases result with
    | fails errno => exact Nat.le_refl 0
    | takes room =>
      have some_ := List.length_pos_of_ne_nil waiting
      simp only [LinkEnd.output] at some_
      simp only [LinkAct.transfers, Endpoint.written, List.length_take, decide_eq_true_eq]
      split <;> omega
  refine ⟨e, ?_, out.input, ⟨kept, out.reading.trans old.reading, ?_, old.stored, ?_⟩, ?_,
    List.prefix_rfl, ?_⟩
  · rw [step, run]
    rfl
  · rw [LinkEnd.input, out.input]
    exact old.small
  · rw [LinkEnd.input, out.input]
    exact old.taken
  · rw [out.accepted]
    exact List.prefix_append ..
  · simp only [LinkEnd.progress, out.accepted, List.length_append]
    omega

theorem handleRead_advance {count : Nat} (old : Sound (l s) (l s.other).endpoint.accepted)
    (ready : l.Ready (.handleRead s count)) (fits : l.Fits (.handleRead s count)) :
    ∃ input, l.step (.handleRead s count) =
        .ok (Function.update l s { (l s).setInput input with stored := (l s).stored + count }) ∧
      Advance l s { (l s).setInput input with stored := (l s).stored + count } 1 := by
  obtain ⟨_, some_, arrived, _⟩ := ready
  have size : ((l.flight s).take count).length = count := by
    rw [List.length_take]
    omega
  have more : (l.flight s).take count ≠ [] := by
    intro none
    rw [none] at size
    exact absurd size (Nat.ne_of_lt some_)
  have room : (l s).input.PutFits ((l.flight s).take count).length := size.symm ▸ fits
  obtain ⟨input, run, small, contents⟩ := IoBuffer.retrieve_fits old.small _ room more
  have inside : (l s).stored + count ≤ (l s.other).endpoint.accepted.length := by
    rw [flight, List.length_drop] at arrived
    have := old.stored
    omega
  refine ⟨input, ?_, ⟨old.outgoing.setInput input, old.reading, small, inside, ?_⟩, List.prefix_rfl,
    List.prefix_rfl, ?_⟩
  · rw [step, run, size]
    rfl
  · have taken : (l s).consumed ++ input.contents =
        (l s).consumed ++ (l s).input.contents ++ (l.flight s).take count := by
      rw [contents, List.append_assoc]
    rw [old.taken, flight, ← List.take_add] at taken
    exact taken
  · simp only [LinkEnd.progress, LinkEnd.setInput]
    omega

theorem get_advance {size : Nat} (old : Sound (l s) (l s.other).endpoint.accepted)
    (ready : l.Ready (.get s size)) :
    ∃ p, l.step (.get s size) = .ok (Function.update l s p) ∧ Advance l s p 1 := by
  obtain ⟨some_, filled⟩ := ready
  obtain ⟨input, run, small, contents⟩ := IoBuffer.get_small old.small size
  have held := IoBuffer.contents_length old.small.toLayout
  refine ⟨{ (l s).setInput input with
    consumed := (l s).consumed ++ (l s).input.contents.take size }, ?_,
    ⟨old.outgoing.setInput input, old.reading, small, old.stored, ?_⟩, List.prefix_rfl,
    List.prefix_rfl, ?_⟩
  · rw [step, run]
    rfl
  · have taken : (l s).consumed ++ (l s).input.contents.take size ++ input.contents =
        (l s).consumed ++ (l s).input.contents := by
      rw [contents, List.append_assoc, List.take_append_drop]
    exact taken.trans old.taken
  · simp only [LinkEnd.progress, LinkEnd.setInput, List.length_append, List.length_take]
    omega

end

theorem step_spec {a : LinkAct} (old : Sound (l a.side) (l a.side.other).endpoint.accepted)
    (ready : l.Ready a) (alive : ¬ Breaks a) (fits : l.Fits a) :
    ∃ p, l.step a = .ok (Function.update l a.side p) ∧
      Advance l a.side p (if a.transfers then 1 else 0) := by
  cases a with
  | send s data result =>
    obtain ⟨e, run, _, advance⟩ := send_advance old alive fits
    exact ⟨_, run, advance⟩
  | handleWrite s result =>
    obtain ⟨e, run, _, advance⟩ := handleWrite_advance old ready
    exact ⟨_, run, advance⟩
  | handleRead s count =>
    obtain ⟨input, run, advance⟩ := handleRead_advance old ready fits
    exact ⟨_, run, advance⟩
  | get s size => exact get_advance old ready

/-- A step that leaves the link intact has had room for its bytes. -/
theorem step_exact (h : l.Invariant) {a : LinkAct} (ready : l.Ready a) (alive : ¬ Breaks a)
    (run : l.step a = .ok l') (kept : l'.Intact) : l.Fits a := by
  cases a with
  | handleWrite s result => trivial
  | get s size => trivial
  | send s data result =>
    have old := h s
    obtain ⟨e, sent, same⟩ := bind_eq_ok.mp run
    cases same
    obtain ⟨taken, out⟩ := Endpoint.send_outward old.outgoing.watched sent
    have there := (kept s.other).1
    have flag := (kept s).2
    simp only [flight, other_other, Function.update_self, Function.update_of_ne (other_ne s)] at there flag
    have known := h s.other
    rw [other_other] at known
    have longer : e.accepted.take (l s.other).stored =
        (l s).endpoint.accepted.take (l s.other).stored := by
      rw [out.accepted]
      exact List.take_append_of_le_length known.stored
    rw [known.taken, ← longer, List.take_append_drop] at there
    exact Endpoint.step_exact old.outgoing alive sent ⟨there, flag, out.watched⟩
  | handleRead s count =>
    have old := h s
    obtain ⟨_, _, arrived, _⟩ := ready
    have size : ((l.flight s).take count).length = count := by
      rw [List.length_take]
      omega
    obtain ⟨⟨n, input⟩, read, same⟩ := bind_eq_ok.mp run
    cases same
    have here := (kept s).1
    simp only [flight, Function.update_self, Function.update_of_ne (other_ne s)] at here
    rw [← ((h.intact) s).1] at here
    have ends := List.append_cancel_right here
    rw [IoBuffer.retrieve_count read, size, ← List.drop_drop] at ends
    have split : (l s).consumed ++ (l s).input.contents ++ l.flight s =
        (l s).consumed ++ (l s).input.contents ++ (l.flight s).take count ++
          (l.flight s).drop count := by
      rw [List.append_assoc _ ((l.flight s).take count), List.take_append_drop]
    have front := List.append_cancel_right (ends.trans split)
    rw [List.append_assoc] at front
    rw [Fits, ← size]
    exact IoBuffer.fits_of_retrieve old.small read (List.append_cancel_left front)

theorem Invariant.step (h : l.Invariant) {a : LinkAct} (allowed : l.Allowed a) (taken : Steps l a l') :
    l'.Invariant := by
  obtain ⟨p, run, advance⟩ := step_spec (h _) allowed.ready allowed.alive allowed.fits
  cases taken.symm.trans run
  exact advance.invariant h

theorem reaches_invariant {start : Link} (opened : start.Opened)
    (run : Reaches Steps Allowed start l) : l.Invariant :=
  run.invariant opened.invariant fun _ _ _ inv allowed taken => inv.step allowed taken

def given (l : Link) : Nat := (l .localSide).given.length + (l .remoteSide).given.length

def next (l : Link) (a : LinkAct) : Option Link :=
  if l.Ready a ∧ ¬ Breaks a ∧ l.Fits a then (l.step a).toOption else none

theorem next_sound (l : Link) (a : LinkAct) (l' : Link) (taken : l.next a = some l') :
    l.Allowed a ∧ Steps l a l' := by
  unfold next at taken
  split at taken
  · rename_i allowed
    refine ⟨⟨allowed.1, allowed.2.1, allowed.2.2⟩, ?_⟩
    unfold Steps
    cases run : l.step a with
    | error f =>
      rw [run] at taken
      cases taken
    | ok m =>
      rw [run] at taken
      cases taken
      rfl
  · cases taken

/-- A request in two pieces and an answer that no callback has taken yet. -/
def exchange : List LinkAct :=
  [.send .localSide (ascii "ping") (.takes 1), .handleRead .remoteSide 1, .handleWrite .localSide (.takes 9),
    .handleRead .remoteSide 3, .get .remoteSide 8, .send .remoteSide (ascii "pong") (.fails .EAGAIN),
    .handleWrite .remoteSide (.takes 4), .handleRead .localSide 4]

/-- After every run of the two ends, in which the loops run any handlers that are ready and bytes go
and come in any pieces, both streams are intact; and a step leaves them intact exactly when the bytes
that it hands to a buffer fit. -/
theorem link_intact_iff (start l : Link) (opened : start.Opened)
    (run : Reaches Steps Allowed start l) : l.Intact ∧ ∀ a : LinkAct, l.Ready a → ¬ Breaks a →
      ((∃ l', l.step a = .ok l' ∧ l'.Intact) ↔ l.Fits a) := by
  have inv := reaches_invariant opened run
  refine ⟨inv.intact, fun a ready alive => ⟨?_, ?_⟩⟩
  · rintro ⟨l', taken, kept⟩
    exact step_exact inv ready alive taken kept
  · intro fits
    obtain ⟨p, taken, advance⟩ := step_spec (inv _) ready alive fits
    exact ⟨_, taken, (advance.invariant inv).intact⟩

/-- Two loops with a new connection each. -/
def pair : Link := fun _ => { endpoint := Endpoint.opened }

theorem pair_reading : Endpoint.opened.isReading = true := by decide

theorem pair_opened : pair.Opened :=
  ⟨fun _ => Endpoint.opened_established, fun _ => pair_reading, fun _ => rfl, fun _ => rfl, fun _ => rfl,
    fun _ => rfl⟩

/-- Behind the exchange the callback of the local side takes the answer. -/
theorem link_intact_exchange : ∃ l l', Reaches Steps Allowed pair l ∧ l.given = 8 ∧ l.Intact ∧
    l.step (.get .localSide 4) = .ok l' ∧ l'.Intact := by
  have ends : (exchange.foldlM next pair).any fun l =>
      l.given = 8 ∧ l.Ready (.get .localSide 4) ∧ l.Fits (.get .localSide 4) := by decide +kernel
  obtain ⟨l, run, test⟩ := (Option.any_eq_true _ _).mp ends
  obtain ⟨given, ready, fits⟩ := of_decide_eq_true test
  have reaches := (Runs.of_function next next_sound exchange run).reaches
  obtain ⟨intact, further⟩ := link_intact_iff pair l pair_opened reaches
  obtain ⟨l', taken, intact'⟩ := (further (.get .localSide 4) ready (by decide)).mpr fits
  exact ⟨l, l', reaches, given, intact, taken, intact'⟩

def progress (l : Link) : Nat := (l .localSide).progress + (l .remoteSide).progress

theorem Advance.progress_le {p : LinkEnd} {moved : Nat} (step : Advance l s p moved) :
    l.progress + moved ≤ Link.progress (Function.update l s p) := by
  have further := step.progress
  cases s with
  | localSide =>
    rw [Link.progress, Link.progress, Function.update_self,
      Function.update_of_ne (nofun : Side.remoteSide ≠ .localSide)]
    omega
  | remoteSide =>
    rw [Link.progress, Link.progress, Function.update_self,
      Function.update_of_ne (nofun : Side.localSide ≠ .remoteSide)]
    omega

theorem Sound.progress_le {p : LinkEnd} {sent : Bytes} (h : Sound p sent) :
    p.progress ≤ p.given.length + 2 * sent.length := by
  have out := congrArg List.length h.outgoing.stream
  have taken := congrArg List.length h.taken
  have stored := h.stored
  simp only [List.length_append, List.length_take] at out taken
  simp only [LinkEnd.progress]
  omega

theorem progress_le (h : l.Invariant) : l.progress ≤ 3 * l.given := by
  have here := (h .localSide).progress_le
  have there := (h .remoteSide).progress_le
  have out := congrArg List.length (h .localSide).outgoing.stream
  have back := congrArg List.length (h .remoteSide).outgoing.stream
  simp only [List.length_append] at out back
  simp only [Side.other] at here there
  simp only [progress, given]
  omega

/-- Where no transfer is ready, nothing is left to transfer. -/
theorem at_rest (h : l.Invariant) (rest : ∀ a : LinkAct, a.transfers = true → ¬ l.Ready a) (s : Side) :
    (l s).consumed = (l s.other).given := by
  have old := h s
  have held := IoBuffer.contents_length old.small.toLayout
  have empty : (l s).input.contents = [] := by
    by_contra filled
    have := List.length_pos_of_ne_nil filled
    exact rest (.get s 1) rfl ⟨Nat.one_pos, by omega⟩
  have landed : l.flight s = [] := by
    by_contra flying
    have := List.length_pos_of_ne_nil flying
    exact rest (.handleRead s 1) rfl ⟨old.reading, Nat.one_pos, this, IoBuffer.readvRoom_pos _⟩
  have written : (l s.other).output.contents = [] := by
    by_contra waiting
    exact rest (.handleWrite s.other (.takes 1)) rfl ((h s.other).outgoing.flag.mpr waiting)
  have whole := (h.intact s).1
  rwa [empty, landed, written, List.append_nil, List.append_nil, List.append_nil] at whole

/-- Every run makes at most three transfers for each byte given to a `send`, and where it cannot make
another one, both message callbacks have taken all that the other side has been given. -/
theorem everything_arrives (start l : Link) (opened : start.Opened) (acts : List LinkAct)
    (run : Runs Steps Allowed start acts l) : acts.countP LinkAct.transfers ≤ 3 * l.given ∧
      ((∀ a : LinkAct, a.transfers = true → ¬ l.Ready a) → ∀ s : Side, (l s).consumed = (l s.other).given) := by
  have inv := reaches_invariant opened run.reaches
  refine ⟨?_, at_rest inv⟩
  have count := run.countP_supplied Invariant LinkAct.transfers (fun _ => 0) progress opened.invariant
    (fun _ _ _ inv allowed taken => inv.step allowed taken) ?_
  · have := progress_le inv
    omega
  · intro x a y inv allowed taken
    obtain ⟨p, run, advance⟩ := step_spec (inv _) allowed.ready allowed.alive allowed.fits
    cases taken.symm.trans run
    have := advance.progress_le
    omega

theorem everything_arrives_exchange : ∃ l, Runs Steps Allowed pair exchange l ∧
    exchange.countP LinkAct.transfers = 6 ∧ l.given = 8 ∧ exchange.countP LinkAct.transfers ≤ 3 * l.given := by
  have ends : (exchange.foldlM next pair).map (fun l => l.given) = some 8 := by decide +kernel
  obtain ⟨l, run, given⟩ := Option.map_eq_some_iff.mp ends
  have runs := Runs.of_function next next_sound exchange run
  exact ⟨l, runs, rfl, given, (everything_arrives pair l pair_opened exchange runs).1⟩

end Link
end Yamq
