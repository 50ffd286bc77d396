import Yamq.Tcp.Connection

/-! The outgoing byte stream of a connection over every run of `send` and `HandleWrite`. -/
namespace Yamq.Endpoint

/-- What the loop runs, with the result that `::send` has if it is called. -/
inductive Op where
  | send (data : Bytes) (result : SendResult)
  | handleWrite (result : SendResult)

def Op.data : Op → Bytes
  | .send data _ => data
  | .handleWrite _ => []

def Op.result : Op → SendResult
  | .send _ result => result
  | .handleWrite result => result

def SendFails (result : SendResult) : Prop := result = .fails .EPIPE ∨ result = .fails .ECONNRESET

instance (result : SendResult) : Decidable (SendFails result) := inferInstanceAs (Decidable (_ ∨ _))

def step (s : Endpoint) : Op → Except Fault Endpoint
  | .send data result => s.send data result
  | .handleWrite result => s.handleWrite result

/-- Everything given to `send` so far has gone out or waits, in order, and the write interest is
set exactly when something waits. -/
structure Intact (s : Endpoint) (given : Bytes) : Prop where
  stream : s.accepted ++ s.conn.outputBuf.contents = given
  flag : s.conn.isWritable = true ↔ s.conn.outputBuf.contents ≠ []
  watched : s.conn.Watched s.regs

/-- `Intact` now and after every further step, none of which faults. -/
def StaysIntact : Endpoint → Bytes → List Op → Prop
  | s, given, [] => s.Intact given
  | s, given, op :: ops =>
    s.Intact given ∧ ∃ s', s.step op = .ok s' ∧ StaysIntact s' (given ++ op.data) ops

/-- The bytes that a step hands to `Put`. -/
def leftover (s : Endpoint) : Op → Bytes
  | .send data (.takes room) => if s.idle then data.drop room else data
  | .send data (.fails _) => data
  | .handleWrite _ => []

def StepFits (s : Endpoint) (op : Op) : Prop :=
  s.leftover op = [] ∨ s.conn.outputBuf.PutFits (s.leftover op).length

/-- In every state of the run, the next step's `Put` fits. -/
def RunFits : Endpoint → List Op → Prop
  | _, [] => True
  | s, op :: ops => s.StepFits op ∧ ∀ s', s.step op = .ok s' → RunFits s' ops

/-- A connection as `establish` leaves it. -/
structure Established (s : Endpoint) : Prop where
  status : s.conn.status = .CONNECTED
  watched : s.conn.Watched s.regs
  quiet : s.conn.isWritable = false
  output : s.conn.outputBuf = .new IoBuffer.kInitialSize
  accepted : s.accepted = []

/-- `establish` from a new connection, whether `Server::newConnect` has called `SetEvents` before
it or not. -/
theorem establish_established {s t : Endpoint} (quiet : s.conn.isWritable = false)
    (channel : 0 ≤ s.conn.fd ∧ s.conn.attached = false ∧ s.regs.interest s.conn.fd = none ∨
      s.conn.Watched s.regs)
    (output : s.conn.outputBuf = .new IoBuffer.kInitialSize) (accepted : s.accepted = [])
    (run : s.establish = .ok t) : t.Established := by
  have off := (Channel.isWritable_read s.conn.toChannel).trans quiet
  rw [establish, Channel.enableRead] at run
  rcases channel with ⟨valid, fresh, free⟩ | watched
  · obtain ⟨regs, set, watched⟩ :=
      Channel.setEvents_fresh valid fresh free (s.conn.events ||| EV_READ)
    rw [set] at run
    cases run
    exact ⟨rfl, watched, off, output, accepted⟩
  · obtain ⟨regs, set, watched⟩ := Channel.watched_setEvents watched (s.conn.events ||| EV_READ)
    rw [set] at run
    cases run
    exact ⟨rfl, watched, off, output, accepted⟩

/-- What every run keeps. -/
structure Invariant (s : Endpoint) (given : Bytes) : Prop extends s.Intact given where
  status : s.conn.status = .CONNECTED
  small : s.conn.outputBuf.Small

theorem Established.invariant {s : Endpoint} (h : s.Established) : s.Invariant [] where
  stream := by rw [h.accepted, h.output, IoBuffer.new_contents]; rfl
  flag := by rw [h.output, IoBuffer.new_contents, h.quiet]; decide
  watched := h.watched
  status := h.status
  small := by rw [h.output]; exact IoBuffer.new_small _ (by decide)

theorem idle_iff {s : Endpoint} {given : Bytes} (h : s.Invariant given) :
    s.idle = true ↔ s.conn.outputBuf.contents = [] := by
  rw [idle, Bool.and_eq_true, beq_iff_eq, IoBuffer.readable_zero h.small.toLayout,
    Bool.not_eq_true', ← Bool.not_eq_true, h.flag]
  simp

theorem buffer_spec {s : Endpoint} {given : Bytes} (h : s.Invariant given) (remaining : Bytes)
    (fits : remaining = [] ∨ s.conn.outputBuf.PutFits remaining.length) :
    ∃ s', s.buffer remaining = .ok s' ∧ s'.Invariant (given ++ remaining) := by
  by_cases none : remaining = []
  · subst none
    exact ⟨s, if_pos rfl, by rwa [List.append_nil]⟩
  · obtain ⟨out, put, small, contents⟩ :=
      IoBuffer.put_fits h.small remaining (fits.resolve_left none) none
    have filled : out.contents ≠ [] := by simp [contents, none]
    have stream : s.accepted ++ out.contents = given ++ remaining := by
      rw [contents, ← List.append_assoc, h.stream]
    rw [buffer, if_neg none, put, ok_bind]
    by_cases flag : s.conn.isWritable = true
    · refine ⟨_, if_pos flag, ⟨stream, ?_, h.watched⟩, h.status, small⟩
      exact ⟨fun _ => filled, fun _ => flag⟩
    · obtain ⟨regs, set, watched⟩ := Channel.watched_setEvents h.watched (s.conn.events ||| EV_WRITE)
      have on := Channel.isWritable_enable s.conn.toChannel
      simp only [Channel.enableWrite, set, ok_bind, pure_ok, flag]
      exact ⟨_, rfl, ⟨stream, ⟨fun _ => filled, fun _ => on⟩, watched⟩, h.status, small⟩

theorem buffer_exact {s s' : Endpoint} {given : Bytes} (h : s.Invariant given) {remaining : Bytes}
    (run : s.buffer remaining = .ok s') (kept : s'.Intact (given ++ remaining)) :
    remaining = [] ∨ s.conn.outputBuf.PutFits remaining.length := by
  by_cases none : remaining = []
  · exact .inl none
  · right
    rw [buffer, if_neg none, bind_eq_ok] at run
    obtain ⟨out, put, run⟩ := run
    have same : s'.accepted = s.accepted ∧ s'.conn.outputBuf = out := by
      by_cases flag : s.conn.isWritable = true
      · rw [if_pos flag] at run
        cases run
        exact ⟨rfl, rfl⟩
      · rw [if_neg flag, bind_eq_ok] at run
        obtain ⟨channel, _, run⟩ := run
        cases run
        exact ⟨rfl, rfl⟩
    have stream := kept.stream
    rw [same.1, same.2, ← h.stream, List.append_assoc] at stream
    exact IoBuffer.fits_of_put h.small put (List.append_cancel_left stream)

theorem drain_spec {s : Endpoint} {given : Bytes} (h : s.Invariant given) (room : Nat)
    (some_ : s.conn.outputBuf.contents.take room ≠ []) :
    ∃ s', s.drain (s.conn.outputBuf.contents.take room) = .ok s' ∧ s'.Invariant given := by
  have inside : (s.conn.outputBuf.contents.take room).length ≤ s.conn.outputBuf.contents.length :=
    List.length_take_le' ..
  obtain ⟨out, seek, small, contents⟩ := IoBuffer.seek_small h.small inside
  have stream : s.accepted ++ s.conn.outputBuf.contents.take room ++ out.contents = given := by
    rw [contents, List.append_assoc, ← h.stream]
    congr 1
    exact List.prefix_iff_eq_append.mp (List.take_prefix ..)
  have held : s.conn.outputBuf.contents ≠ [] := by
    intro none
    exact some_ (by rw [none, List.take_nil])
  rw [drain, seek, ok_bind]
  by_cases done : out.readableBytes = 0
  · have empty := (IoBuffer.readable_zero small.toLayout).mp done
    obtain ⟨regs, set, watched⟩ := Channel.watched_setEvents h.watched (s.conn.events &&& ~~~EV_WRITE)
    have off := Channel.isWritable_disable s.conn.toChannel
    simp only [done, if_true, Channel.disableWrite, set, ok_bind, pure_ok]
    refine ⟨_, rfl, ⟨stream, ⟨fun on => ?_, fun filled => absurd empty filled⟩, watched⟩, h.status,
      small⟩
    exact absurd (off.symm.trans on) Bool.false_ne_true
  · have filled : out.contents ≠ [] := fun empty =>
      done ((IoBuffer.readable_zero small.toLayout).mpr empty)
    refine ⟨_, if_neg done, ⟨stream, ?_, h.watched⟩, h.status, small⟩
    exact ⟨fun _ => filled, fun _ => h.flag.mpr held⟩

theorem handleWrite_spec {s : Endpoint} {given : Bytes} (h : s.Invariant given)
    (result : SendResult) : ∃ s', s.handleWrite result = .ok s' ∧ s'.Invariant given := by
  have loaded := IoBuffer.load_contents h.small.toLayout
  simp only [handleWrite, loaded, ok_bind]
  cases result with
  | fails errno => exact ⟨s, rfl, h⟩
  | takes room =>
    by_cases none : s.conn.outputBuf.contents.take room = []
    · exact ⟨s, if_pos none, h⟩
    · obtain ⟨s', run, kept⟩ := drain_spec h room none
      exact ⟨s', by simpa only [if_neg none] using run, kept⟩

theorem send_direct {s : Endpoint} {given : Bytes} (h : s.Invariant given) (idle : s.idle = true)
    (data : Bytes) (room : Nat) :
    Invariant { s with accepted := s.accepted ++ data.take room } (given ++ data.take room) := by
  have empty := (idle_iff h).mp idle
  refine ⟨⟨?_, h.flag, h.watched⟩, h.status, h.small⟩
  rw [← h.stream, empty, List.append_nil, List.append_nil]

/-- One step goes through and keeps the invariant exactly when its `Put` fits. -/
theorem step_spec {s : Endpoint} {given : Bytes} (h : s.Invariant given) (op : Op)
    (alive : ¬ SendFails op.result) (fits : s.StepFits op) :
    ∃ s', s.step op = .ok s' ∧ s'.Invariant (given ++ op.data) := by
  cases op with
  | handleWrite result =>
    simpa only [step, Op.data, List.append_nil] using handleWrite_spec h result
  | send data result =>
    simp only [step, send, h.status, Op.data, ne_eq, not_true, if_false]
    cases idle : s.idle with
    | false =>
      have whole : s.leftover (.send data result) = data := by
        cases result <;> simp [leftover, idle]
      rw [StepFits, whole] at fits
      simp only [Bool.false_eq_true, if_false]
      exact buffer_spec h data fits
    | true =>
      cases result with
      | fails errno =>
        have kept : ¬ (errno = .EPIPE ∨ errno = .ECONNRESET) := by
          simpa [SendFails, Op.result] using alive
        simp only [if_true, if_neg kept]
        exact buffer_spec h data fits
      | takes room =>
        have rest : s.leftover (.send data (.takes room)) = data.drop room := by simp [leftover, idle]
        rw [StepFits, rest] at fits
        obtain ⟨s', run, kept⟩ := buffer_spec (send_direct h idle data room) (data.drop room) fits
        rw [List.append_assoc, List.take_append_drop] at kept
        simp only [if_true]
        exact ⟨s', run, kept⟩

/-- A `send` that returns has kept the invariant, whatever `::send` reported. -/
theorem send_invariant {s s' : Endpoint} {given data : Bytes} {result : SendResult}
    (h : s.Invariant given) (fits : s.StepFits (.send data result))
    (run : s.send data result = .ok s') : s'.Invariant (given ++ data) := by
  by_cases alive : SendFails result
  · -- an error of `::send` ends the process, unless the output was busy and `::send` not called
    cases idle : s.idle with
    | true =>
      rcases alive with fails | fails <;> simp [send, h.status, idle, fails] at run
    | false =>
      have whole : s.leftover (.send data result) = data := by
        rcases alive with fails | fails <;> rw [fails] <;> rfl
      rw [StepFits, whole] at fits
      obtain ⟨t, buffered, kept⟩ := buffer_spec h _ fits
      simp only [send, h.status, ne_eq, not_true, if_false, idle, Bool.false_eq_true, buffered] at run
      cases run
      exact kept
  · obtain ⟨t, sent, kept⟩ := step_spec h (.send data result) alive fits
    cases sent.symm.trans run
    exact kept

theorem step_exact {s s' : Endpoint} {given : Bytes} (h : s.Invariant given) {op : Op}
    (alive : ¬ SendFails op.result) (run : s.step op = .ok s')
    (kept : s'.Intact (given ++ op.data)) : s.StepFits op := by
  cases op with
  | handleWrite result => exact .inl rfl
  | send data result =>
    simp only [step, send, h.status, ne_eq, not_true, if_false] at run
    cases idle : s.idle with
    | false =>
      have whole : s.leftover (.send data result) = data := by
        cases result <;> simp [leftover, idle]
      rw [idle, if_neg Bool.false_ne_true] at run
      rw [StepFits, whole]
      exact buffer_exact h run kept
    | true =>
      rw [idle, if_pos rfl] at run
      cases result with
      | fails errno =>
        have up : ¬ (errno = .EPIPE ∨ errno = .ECONNRESET) := by
          simpa [SendFails, Op.result] using alive
        simp only [if_neg up] at run
        exact buffer_exact h run kept
      | takes room =>
        have rest : s.leftover (.send data (.takes room)) = data.drop room := by simp [leftover, idle]
        have split : given ++ data = given ++ data.take room ++ data.drop room := by
          rw [List.append_assoc, List.take_append_drop]
        rw [Op.data, split] at kept
        rw [StepFits, rest]
        exact buffer_exact (send_direct h idle data room) run kept

theorem staysIntact_iff {ops : List Op} (alive : ∀ op ∈ ops, ¬ SendFails op.result)
    {s : Endpoint} {given : Bytes} (h : s.Invariant given) :
    s.StaysIntact given ops ↔ s.RunFits ops := by
  induction ops generalizing s given with
  | nil => simp only [StaysIntact, RunFits, h.toIntact]
  | cons op ops ih =>
    have here := alive op (by simp)
    have later : ∀ op ∈ ops, ¬ SendFails op.result := fun o member => alive o (by simp [member])
    constructor
    · rintro ⟨_, s', run, rest⟩
      have kept : s'.Intact (given ++ op.data) := by
        cases ops with
        | nil => exact rest
        | cons _ _ => exact rest.1
      have fits := step_exact h here run kept
      refine ⟨fits, fun t same => ?_⟩
      obtain ⟨t', run', inv⟩ := step_spec h op here fits
      cases run.symm.trans same
      cases run.symm.trans run'
      exact (ih later inv).mp rest
    · rintro ⟨fits, rest⟩
      obtain ⟨s', run, inv⟩ := step_spec h op here fits
      exact ⟨h.toIntact, s', run, (ih later inv).mpr (rest s' run)⟩

/-- From an established connection, over every sequence of `send` and `HandleWrite` and every
result of `::send` but EPIPE and ECONNRESET: the stream stays intact at every point exactly when
no `Put` of the run is given more than the `int` indices can hold. -/
theorem outgoing_intact_iff (s : Endpoint) (start : s.Established) (ops : List Op)
    (alive : ∀ op ∈ ops, ¬ SendFails op.result) : s.StaysIntact [] ops ↔ s.RunFits ops :=
  staysIntact_iff alive start.invariant

/-- A connection on descriptor 5 of a loop that watches nothing else. -/
def opened : Endpoint where
  conn := { self := 0, fd := 5, events := EV_READ, attached := true, id := 1, status := .CONNECTED }
  regs := ⟨fun fd => if fd = 5 then some EPOLLIN else none, fun fd => if fd = 5 then some 0 else none⟩
  accepted := []

theorem opened_established : opened.Established := ⟨rfl, ⟨rfl, by decide⟩, rfl, rfl, rfl⟩

theorem outgoing_intact_short_write :
    opened.StaysIntact [] [.send (ascii "abc") (.takes 1), .handleWrite (.takes 9)] := by
  apply (outgoing_intact_iff opened opened_established _ (by decide)).mpr
  exact ⟨.inr (by decide), fun _ _ => ⟨.inl rfl, fun _ _ => trivial⟩⟩

theorem put_wraps (data : Bytes) (long : data.length = 2147483648) :
    (IoBuffer.new IoBuffer.kInitialSize).put data = .error .outOfBounds := by
  have wrapped : toInt data.length = -2147483648 := by
    rw [long]
    decide +kernel
  have roomy : ¬ toInt (List.replicate IoBuffer.kInitialSize (0 : Byte)).length < -2147483648 := by
    have low := toInt_bounds (List.replicate IoBuffer.kInitialSize (0 : Byte)).length
    omega
  have beyond := IoBuffer.store_end (List.replicate 8 0)
    (List.replicate IoBuffer.kInitialSize 0) data (by rw [long, List.length_replicate]; decide)
  rw [IoBuffer.new_parts, IoBuffer.put, IoBuffer.ensureSpace, IoBuffer.parts_writable, wrapped,
    if_neg roomy, ok_bind]
  exact bind_error beyond

/-- 2 ^ 31 bytes at once, of which the kernel takes none: their number becomes a negative `int`,
no space is made for them, and the copy leaves the vector. -/
theorem outgoing_overrun :
    opened.Established ∧
      opened.step (.send (List.replicate 2147483648 0) (.fails .EAGAIN)) = .error .outOfBounds ∧
      ¬ opened.StaysIntact [] [.send (List.replicate 2147483648 0) (.fails .EAGAIN)] := by
  have long : (List.replicate 2147483648 (0 : Byte)).length = 2147483648 := List.length_replicate
  generalize List.replicate 2147483648 (0 : Byte) = data at long
  have some_ : data ≠ [] := by
    rintro rfl
    cases long
  have put : opened.conn.outputBuf.put data = .error .outOfBounds := put_wraps data long
  have fault : opened.step (.send data (.fails .EAGAIN)) = .error .outOfBounds := by
    have connected : ¬ opened.conn.status ≠ .CONNECTED := by decide
    have idle : opened.idle = true := by decide
    have retry : ¬ (Errno.EAGAIN = .EPIPE ∨ Errno.EAGAIN = .ECONNRESET) := by decide
    rw [step, send, if_neg connected, if_pos idle]
    simp only [if_neg retry, buffer, if_neg some_, put, error_bind]
  refine ⟨opened_established, fault, ?_⟩
  rintro ⟨_, s', run, _⟩
  rw [fault] at run
  cases run

end Yamq.Endpoint
