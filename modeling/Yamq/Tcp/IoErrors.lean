import Yamq.Lib.Transition
import Yamq.Tcp.ServerState

/-! What a failed `accept4`, `readv` or `::send` does to the server and to the other connections. -/
namespace Yamq

/-- The system call that the operation makes fails. -/
def ServerOp.Failing : ServerOp → Prop
  | .accept (.fails _) => True
  | .read _ .error => True
  | .handleWrite _ (.fails _) => True
  | .send _ _ (.fails _) => True
  | _ => False

namespace ServerRun

open Transition
open Closing (noRegs)

/-- A connection object and, if it has one, its registration. -/
structure Unchanged (s s' : ServerRun) (j : Nat) : Prop where
  peer : s'.peers j = s.peers j
  registration : ∀ q, s.peers j = some q → (s.view q).Registered → (s'.view q).Registered ∧
    (s'.regs q.evd).interest q.conn.fd = (s.regs q.evd).interest q.conn.fd

/-- The process goes on. A failed accept has changed nothing, a failed read or write of one
connection nothing of the others. -/
def Contained (s : ServerRun) (op : ServerOp) : Prop :=
  ∃ s', Steps s op s' ∧ s'.connections = s.connections ∧
    match op with
    | .accept _ => s'.peers = s.peers ∧ s'.regs = s.regs
    | .read k _ => ∀ j, j ≠ k → Unchanged s s' j
    | .handleWrite k _ => ∀ j, j ≠ k → Unchanged s s' j
    | .send k _ _ => ∀ j, j ≠ k → Unchanged s s' j
    | _ => True

/-- A failing write: of `HandleWrite`, or of a `send` that has `::send` called, with another error
than EPIPE and ECONNRESET. -/
def Harmless (s : ServerRun) : ServerOp → Prop
  | .handleWrite _ _ => True
  | .send k _ (.fails errno) => ∀ p, s.peers k = some p → p.conn.status = .CONNECTED →
      (s.view p).endpoint.idle = true → errno ≠ .EPIPE ∧ errno ≠ .ECONNRESET
  | _ => False

/-- The server after `Start`, with the channels of its own that the loops have. -/
def start (workerNum created : Nat) (regs : Nat → Registrations) : ServerRun :=
  { dispatchers := .start workerNum, created := created, regs := regs }

section
variable {s s' : ServerRun} {k : Nat} {p : Peer}

theorem start_sane {workerNum created : Nat} {regs : Nat → Registrations}
    (consistent : ∀ evd, (regs evd).Consistent) : Sane (start workerNum created regs) := by
  have absent {k : Nat} {p : Peer} (here : (start workerNum created regs).peers k = some p) : False :=
    Option.some_ne_none p here.symm
  exact {
    fresh := fun _ _ => rfl
    self := fun _ _ here => (absent here).elim
    output := fun _ _ here => (absent here).elim
    up := fun _ _ here => (absent here).elim
    consistent := consistent
    young := List.forall_mem_nil _
    once := List.nodup_nil
    grown := List.forall_mem_nil _ }

theorem perform_connections {f : LifeCall} (quiet : ∀ c, ¬ Closing.Shuts c f)
    (run : s.perform k f = .ok s') : s'.connections = s.connections := by
  obtain ⟨p, c, _, ran, rfl⟩ := perform_eq_ok.mp run
  have kept := @Closing.run_keeps (s.serving p) (s.view p) f (quiet _)
  rw [ran] at kept
  have held : c.held = true := kept.held
  simp only [store, held, if_true]

/-- A `newConnect` that returns has an entry more, whatever its argument. -/
theorem newConnect_adds {sockfd : Int} (run : s.newConnect sockfd = .ok s') :
    s'.connections.length = s.connections.length + 1 := by
  simp only [newConnect, bind_eq_ok] at run
  obtain ⟨id, _, ⟨evd, dispatchers⟩, _, t, served, run⟩ := run
  cases run
  have same : t.connections = s.connections := by
    unfold runEstablish at served
    split at served
    · have kept := perform_connections (f := .establish) (fun _ shuts => shuts) served
      exact kept
    · cases served
      rfl
  simp [same]

theorem Sane.unchanged (h : Sane s) (here : s.peers k = some p) {e : Endpoint}
    (within : Endpoint.Within (s.view p).endpoint e)
    (own : (s.view p).Registered ∨ e.regs = s.regs p.evd) {j : Nat} (other : j ≠ k) :
    Unchanged s (s.store k p { s.view p with endpoint := e }) j := by
  have channels : e.regs.channels = (s.regs p.evd).channels := within.channels
  refine ⟨if_neg other, ?_⟩
  intro q there registered
  by_cases same : q.evd = p.evd
  · have regs : (s.store k p { s.view p with endpoint := e }).regs q.evd = e.regs := if_pos same
    have interest : e.regs.interest q.conn.fd = (s.regs q.evd).interest q.conn.fd := by
      rcases own with mine | untouched
      · rw [same]
        apply within.beside
        intro fd
        have fd : q.conn.fd = p.conn.fd := fd
        simp only [view, Lifecycle.Registered] at mine registered
        rw [fd, same, mine, h.self k p here, h.self j q there] at registered
        exact other (Option.some.inj registered).symm
      · rw [untouched, same]
    have table : ((s.store k p { s.view p with endpoint := e }).regs q.evd).channels =
        (s.regs q.evd).channels := by rw [regs, channels, same]
    refine ⟨(congrFun table _).trans registered, ?_⟩
    rw [regs]
    exact interest
  · have regs : (s.store k p { s.view p with endpoint := e }).regs q.evd = s.regs q.evd :=
      if_neg same
    have table : ((s.store k p { s.view p with endpoint := e }).regs q.evd).channels =
        (s.regs q.evd).channels := by rw [regs]
    refine ⟨(congrFun table _).trans registered, ?_⟩
    rw [regs]

theorem accept_not_contained (errno : AcceptErrno) : ¬ Contained s (.accept (.fails errno)) := by
  rintro ⟨s', taken, connections, _⟩
  have run := Option.some.inj taken
  simp only [handleAccept, acceptConnect] at run
  cases expected : errno.expected with
  | false =>
    rw [expected, if_neg Bool.false_ne_true] at run
    cases run
  | true =>
    rw [expected, if_pos rfl] at run
    have more := newConnect_adds run
    rw [connections] at more
    omega

theorem read_not_contained : ¬ Contained s (.read k .error) := by
  rintro ⟨s', taken, _⟩
  obtain ⟨p, here, taken⟩ := Option.bind_eq_some_iff.mp taken
  split at taken
  · have run := Option.some.inj taken
    simp only [handleRead, here, IoBuffer.retrieve] at run
    cases run
  · cases taken

theorem handleWrite_contained (h : Sane s) (errno : Errno)
    (possible : (s.step (.handleWrite k (.fails errno))).isSome) :
    Contained s (.handleWrite k (.fails errno)) := by
  obtain ⟨r, taken⟩ := Option.isSome_iff_exists.mp possible
  obtain ⟨p, here, taken⟩ := Option.bind_eq_some_iff.mp taken
  split at taken
  · rename_i writing
    have loaded := IoBuffer.load_contents (h.output k p here).toLayout
    have wrote : (s.view p).endpoint.handleWrite (.fails errno) = .ok (s.view p).endpoint := by
      rw [Endpoint.handleWrite]
      have loaded : IoBuffer.load (s.view p).endpoint.conn.outputBuf.buf
          (s.view p).endpoint.conn.outputBuf.readerIndex
          (toSize (s.view p).endpoint.conn.outputBuf.readableBytes) = _ := loaded
      rw [loaded]
      rfl
    have ran : s.perform k (.handleWrite (.fails errno)) = .ok (s.store k p (s.view p)) := by
      rw [perform_eq_ok]
      refine ⟨p, s.view p, here, ?_, rfl⟩
      rw [LifeCall.run, wrote]
      rfl
    refine ⟨s.store k p (s.view p), ?_, rfl, ?_⟩
    · rw [Steps, step, here]
      simp only [Option.bind_eq_bind, Option.bind_some, if_pos writing, ran]
    · intro j other
      exact h.unchanged here (.refl _) (.inr rfl) other
  · cases taken

/-- A `send` on whose loop nothing else is in its way. -/
theorem send_contained (h : Sane s) {data : Bytes} {result : SendResult} (here : s.peers k = some p)
    {e : Endpoint} (sent : (s.view p).endpoint.send data result = .ok e) :
    Contained s (.send k data result) := by
  have attached (connected : p.conn.status = .CONNECTED) : p.conn.attached = true := by
    obtain ⟨_, given, inv⟩ := h.up k p here connected
    exact inv.watched.attached
  have within := Endpoint.Within.send attached sent
  have own : (s.view p).Registered ∨ e.regs = s.regs p.evd := by
    by_cases connected : p.conn.status = .CONNECTED
    · exact .inl (h.up k p here connected).registered
    · right
      have down : (s.view p).endpoint.conn.status ≠ .CONNECTED := connected
      simp only [Endpoint.send, ne_eq, down, not_false_iff, if_true] at sent
      cases sent
      rfl
  have ran : s.perform k (.send data result) = .ok (s.store k p { s.view p with endpoint := e }) := by
    rw [perform_eq_ok]
    refine ⟨p, { s.view p with endpoint := e }, here, ?_, rfl⟩
    rw [LifeCall.run, sent]
    rfl
  refine ⟨s.store k p { s.view p with endpoint := e }, ?_, rfl, ?_⟩
  · rw [Steps, step, here]
    simp only [Option.bind_eq_bind, Option.bind_some, ran]
    rfl
  · intro j other
    exact h.unchanged here within own other

theorem send_goes_through (h : Sane s) {data : Bytes} {errno : Errno} (here : s.peers k = some p)
    (fits : Fits s (.send k data (.fails errno))) (harmless : Harmless s (.send k data (.fails errno))) :
    ∃ e, (s.view p).endpoint.send data (.fails errno) = .ok e := by
  by_cases connected : (s.view p).endpoint.conn.status = .CONNECTED
  · obtain ⟨_, given, inv⟩ := h.up k p here connected
    have room := fits p here connected
    obtain ⟨e, buffered, _⟩ := Endpoint.buffer_spec inv data room
    refine ⟨e, ?_⟩
    simp only [Endpoint.send, connected, ne_eq, not_true, if_false]
    cases idle : (s.view p).endpoint.idle with
    | false => simpa using buffered
    | true =>
      obtain ⟨noPipe, noReset⟩ := harmless p here connected idle
      simpa [noPipe, noReset] using buffered
  · refine ⟨(s.view p).endpoint, ?_⟩
    simp [Endpoint.send, connected]

theorem send_harmless {data : Bytes} {errno : Errno}
    (contained : Contained s (.send k data (.fails errno))) :
    Harmless s (.send k data (.fails errno)) := by
  obtain ⟨s', taken, _⟩ := contained
  intro p here connected idle
  obtain ⟨q, there, taken⟩ := Option.bind_eq_some_iff.mp taken
  obtain ⟨q', c, there', ran, _⟩ := perform_eq_ok.mp (Option.some.inj taken)
  cases here.symm.trans there'
  obtain ⟨e, sent, _⟩ := Closing.lift_ok ran
  have connected : (s.view p).endpoint.conn.status = .CONNECTED := connected
  simp only [Endpoint.send, connected, ne_eq, not_true, if_false, idle, if_true] at sent
  split at sent
  · cases sent
  · rename_i kept
    exact not_or.mp kept

end

/-- In every state of every run (all of whose `Put`s fit) and for every failing system call that can
come next: it is contained exactly when it is a `::send` with another error than EPIPE and ECONNRESET,
or one of `HandleWrite`. -/
theorem contained_iff (workerNum created : Nat) (regs : Nat → Registrations)
    (consistent : ∀ evd, (regs evd).Consistent) (s : ServerRun)
    (run : Reaches Steps Fits (start workerNum created regs) s) (op : ServerOp) (failing : op.Failing)
    (possible : (s.step op).isSome) (fits : Fits s op) : Contained s op ↔ Harmless s op := by
  have sane : Sane s := run.invariant (start_sane consistent) fun _ _ _ h fits taken => h.step fits taken
  cases op with
  | accept result =>
    cases result with
    | connfd fd => exact absurd failing not_false
    | fails errno => exact iff_of_false (accept_not_contained errno) not_false
  | read k result =>
    cases result with
    | bytes data => exact absurd failing not_false
    | error => exact iff_of_false read_not_contained not_false
  | handleWrite k result =>
    cases result with
    | takes room => exact absurd failing not_false
    | fails errno => exact iff_of_true (handleWrite_contained sane errno possible) trivial
  | send k data result =>
    cases result with
    | takes room => exact absurd failing not_false
    | fails errno =>
      constructor
      · exact send_harmless
      · intro harmless
        obtain ⟨r, taken⟩ := Option.isSome_iff_exists.mp possible
        obtain ⟨p, here, _⟩ := Option.bind_eq_some_iff.mp taken
        obtain ⟨e, sent⟩ := send_goes_through sane here fits harmless
        exact send_contained sane here sent
  | establish k | forceClose k | testClose k | close k | erase id => exact absurd failing not_false

theorem noRegs_consistent : ∀ evd : Nat, ((fun _ : Nat => noRegs) evd).Consistent :=
  fun _ _ => iff_of_true rfl rfl

/-- A `send` for which the kernel has no room. -/
theorem contained_iff_again : ∃ s, Reaches Steps Fits (start 0 0 fun _ => noRegs) s ∧
    Contained s (.send 0 (ascii "a") (.fails .EAGAIN)) := by
  have run : Reaches Steps Fits (start 0 0 fun _ => noRegs) _ :=
    Reaches.start.step (a := ServerOp.accept (.connfd 5)) trivial rfl
  refine ⟨_, run, ?_⟩
  apply (contained_iff 0 0 _ noRegs_consistent _ run (.send 0 (ascii "a") (.fails .EAGAIN)) trivial rfl
    ?_).mpr
  · intro _ _ _ _
    exact ⟨nofun, nofun⟩
  · intro p here _
    cases here
    exact .inr (by decide)

/-- A failed accept ends the process, or puts descriptor -1 into the table when there is a worker.
A failed read ends the process. -/
theorem errors_escape :
    (start 0 0 fun _ => noRegs).step (.accept (.fails .EMFILE)) = some (.error .abort) ∧
    (∃ s, (start 1 0 fun _ => noRegs).step (.accept (.fails .EMFILE)) = some (.ok s) ∧
      s.connections = [(1, 0)] ∧ (s.peers 0).map (fun p => p.conn.fd) = some (-1)) ∧
    ¬ Contained (start 1 0 fun _ => noRegs) (.accept (.fails .EMFILE)) ∧
    ∃ s, Reaches Steps Fits (start 0 0 fun _ => noRegs) s ∧
      s.step (.read 0 .error) = some (.error .abort) := by
  refine ⟨rfl, ⟨_, rfl, rfl, rfl⟩, accept_not_contained _, ?_⟩
  exact ⟨_, Reaches.start.step (a := ServerOp.accept (.connfd 5)) trivial rfl, rfl⟩

end ServerRun
end Yamq
