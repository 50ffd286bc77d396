import Yamq.Rpc.EventDispatcher
import Yamq.Tcp.Outgoing

/-! `Connection::Send` from other threads. The functor that it queues holds the pointer and the
length, and the memory is read when the loop runs it. Until then the connection may be closed. -/
namespace Yamq

namespace Endpoint

/-- What `HandleRead` does at an EOF, and the functor of `ForceClose`, without the descriptor. The close
callback is `multi::Server::closeConnect`. -/
def shut (s : Endpoint) : Except Fault Endpoint := do
  let regs ← s.regs.removeChannel s.conn.toChannel
  return { s with conn := { s.conn with status := .CLOSED }, regs := regs }

/-- What waits follows what the kernel has accepted, also once the connection is closed. -/
structure Streams (s : Endpoint) (given : Bytes) : Prop where
  stream : s.accepted ++ s.conn.outputBuf.contents = given
  small : s.conn.outputBuf.Small

variable {s s' : Endpoint} {given : Bytes}

theorem Invariant.streams (h : s.Invariant given) : s.Streams given := ⟨h.stream, h.small⟩

theorem Streams.shut (h : s.Streams given) (run : s.shut = .ok s') :
    s'.Streams given ∧ s'.conn.status = .CLOSED := by
  obtain ⟨regs, _, run⟩ := bind_eq_ok.mp run
  cases run
  exact ⟨⟨h.stream, h.small⟩, rfl⟩

theorem Streams.handleWrite (h : s.Streams given) {result : SendResult}
    (run : s.handleWrite result = .ok s') : s'.Streams given := by
  have loaded := IoBuffer.load_contents h.small.toLayout
  simp only [Endpoint.handleWrite, loaded, ok_bind] at run
  cases result with
  | fails errno =>
    cases run
    exact h
  | takes room =>
    by_cases none : s.conn.outputBuf.contents.take room = []
    · simp only [if_pos none] at run
      cases run
      exact h
    · have inside : (s.conn.outputBuf.contents.take room).length ≤ s.conn.outputBuf.contents.length :=
        List.length_take_le' ..
      obtain ⟨out, seek, small, contents⟩ := IoBuffer.seek_small h.small inside
      have stream : s.accepted ++ s.conn.outputBuf.contents.take room ++ out.contents = given := by
        rw [contents, List.append_assoc, ← h.stream]
        congr 1
        exact List.prefix_iff_eq_append.mp (List.take_prefix ..)
      simp only [if_neg none, drain, seek, ok_bind] at run
      split at run
      · obtain ⟨channel, _, run⟩ := bind_eq_ok.mp run
        cases run
        exact ⟨stream, small⟩
      · cases run
        exact ⟨stream, small⟩

end Endpoint

/-- A call of `Send`: its arguments, and what stood at the pointer when it was made. -/
structure SendCall where
  data : Nat
  len : Nat
  given : Bytes

inductive LoopCall where
  | send (call : SendCall)
  | handleWrite
  | shut

/-- The memory of the process, what `::send` does if it is called next, a connection (or the fault
that ended the process) and what its `Send` calls that have run were given. -/
structure SendWorld where
  memory : Nat → Byte
  result : SendResult
  endpoint : Except Fault Endpoint
  given : Bytes := []

namespace SendWorld

def read (w : SendWorld) (data len : Nat) : Bytes := (List.range len).map fun i => w.memory (data + i)

def call (w : SendWorld) (data len : Nat) : LoopCall := .send ⟨data, len, w.read data len⟩

/-- The functor of `Send`, `HandleWrite`, and what closes the connection. -/
def exec : LoopCall → SendWorld → SendWorld
  | .send c, w => { w with
      endpoint := w.endpoint >>= fun e => e.send (w.read c.data c.len) w.result
      given := w.given ++ c.given }
  | .handleWrite, w => { w with endpoint := w.endpoint >>= fun e => e.handleWrite w.result }
  | .shut, w => { w with endpoint := w.endpoint >>= Endpoint.shut }

/-- The connection, if no fault has ended the process, is CONNECTED. -/
def Connected (w : SendWorld) : Prop := ∀ e, w.endpoint = .ok e → e.conn.status = .CONNECTED

/-- The test of `ForceClose`. -/
def mayClose (w : SendWorld) : Bool :=
  match w.endpoint with
  | .ok e => e.conn.status = .CONNECTED
  | .error _ => false

end SendWorld

namespace QueuedSend

open Transition

abbrev State := EventDispatcher LoopCall SendWorld

inductive Act where
  | send (thread : Nat) (data len : Nat)   -- `Send` on another thread
  | sendOnLoop (data len : Nat)
  | handleWrite
  | handleEof
  | forceClose (thread : Nat)              -- its `SyncRunInEvd`; the test may have passed long before
  | forceCloseOnLoop
  | write (addr : Nat) (b : Byte)          -- any thread writes to memory
  | kernel (result : SendResult)
  | caller (thread : Nat)
  | loop

def step (d : State) : Act → Option State
  | .send i data len => d.step SendWorld.exec (.runInEvd i (d.world.call data len))
  | .sendOnLoop data len => d.step SendWorld.exec (.handler (d.world.call data len))
  | .handleWrite => d.step SendWorld.exec (.handler .handleWrite)
  | .handleEof => d.step SendWorld.exec (.handler .shut)
  | .forceClose i => d.step SendWorld.exec (.syncRunInEvd i .shut)
  | .forceCloseOnLoop =>
    if d.world.mayClose then d.step SendWorld.exec (.handler .shut) else some d
  | .write addr b =>
    some { d with world := { d.world with memory := Function.update d.world.memory addr b } }
  | .kernel result => some { d with world := { d.world with result := result } }
  | .caller i => d.step SendWorld.exec (.caller i)
  | .loop => d.step SendWorld.exec .loop

def Steps (d : State) (a : Act) (d' : State) : Prop := step d a = some d'

/-- The bytes appended to the outgoing stream are those that the calls were given. -/
def Faithful (d : State) : Prop :=
  ∀ e, d.world.endpoint = .ok e → e.accepted ++ e.conn.outputBuf.contents = d.world.given

/-- The `Put` of a call that runs now fits. -/
def Fits (w : SendWorld) (data len : Nat) : Prop :=
  ∀ e, w.endpoint = .ok e → e.StepFits (.send (w.read data len) w.result)

/-- No call of `Send` waits for the loop. -/
def NoneWaits (d : State) : Prop := ∀ c, .send c ∉ d.queue

/-- What the loop runs next closes no connection while a call waits. (And no `Put` of a call is given
more than the `int` indices hold.) -/
def Suits (d : State) : LoopCall → Prop
  | .send c => Fits d.world c.data c.len
  | .handleWrite => True
  | .shut => NoneWaits d

/-- `Send` is called on a CONNECTED connection. No write changes a byte of a call whose functor has not
run, and nothing closes the connection before. -/
def Undisturbed (d : State) : Act → Prop
  | .send .. => d.world.Connected
  | .sendOnLoop data len => d.world.Connected ∧ Fits d.world data len
  | .write addr b => ∀ c, .send c ∈ d.queue → c.data ≤ addr → addr < c.data + c.len →
      b = d.world.memory addr
  | .handleEof | .forceCloseOnLoop => NoneWaits d
  | .loop => ∀ f, (d.batch.map Queued.functor).head? = some f → Suits d f
  | _ => True

/-- What the calls keep of the connection. -/
structure Kept (w : SendWorld) : Prop where
  streams : ∀ e, w.endpoint = .ok e → e.Streams w.given
  opened : ∀ e, w.endpoint = .ok e → e.conn.status = .CONNECTED → e.Invariant w.given

structure Invariant (d : State) : Prop where
  held : ∀ c, .send c ∈ d.queue → d.world.read c.data c.len = c.given
  waits : ∀ c, .send c ∈ d.queue → d.world.Connected
  kept : Kept d.world

theorem exec_memory (f : LoopCall) (w : SendWorld) : (SendWorld.exec f w).memory = w.memory := by
  cases f <;> rfl

theorem read_congr {w w' : SendWorld} (same : w'.memory = w.memory) (data len : Nat) :
    w'.read data len = w.read data len := by
  rw [SendWorld.read, SendWorld.read, same]

theorem read_write {w : SendWorld} {data len addr : Nat} {b : Byte}
    (keeps : data ≤ addr → addr < data + len → b = w.memory addr) :
    SendWorld.read { w with memory := Function.update w.memory addr b } data len =
      w.read data len := by
  unfold SendWorld.read
  apply List.map_congr_left
  intro i member
  have inside := List.mem_range.mp member
  by_cases here : data + i = addr
  · subst here
    exact (Function.update_self ..).trans
      (keeps (Nat.le_add_right ..) (Nat.add_lt_add_left inside data))
  · exact Function.update_of_ne here ..

/-! What each call does to the connection. -/

section
variable {w : SendWorld} (h : Kept w)
include h

theorem Kept.send {c : SendCall} (held : w.read c.data c.len = c.given) (connected : w.Connected)
    (fits : Fits w c.data c.len) :
    Kept (SendWorld.exec (.send c) w) ∧ (SendWorld.exec (.send c) w).Connected := by
  have sent (e' : Endpoint) (run : (SendWorld.exec (.send c) w).endpoint = .ok e') :
      e'.Invariant (w.given ++ c.given) := by
    obtain ⟨e, here, run⟩ := bind_eq_ok.mp run
    have kept := Endpoint.send_invariant (h.opened e here (connected e here)) (fits e here) run
    rwa [held] at kept
  exact ⟨⟨fun e' run => (sent e' run).streams, fun e' run _ => sent e' run⟩,
    fun e' run => (sent e' run).status⟩

theorem Kept.handleWrite : Kept (SendWorld.exec .handleWrite w) ∧
    (w.Connected → (SendWorld.exec .handleWrite w).Connected) := by
  refine ⟨⟨fun e' run => ?_, fun e' run connected => ?_⟩, fun connected e' run => ?_⟩
  · obtain ⟨e, here, run⟩ := bind_eq_ok.mp run
    exact (h.streams e here).handleWrite run
  · obtain ⟨e, here, run⟩ := bind_eq_ok.mp run
    rw [Endpoint.handleWrite_status run] at connected
    obtain ⟨t, wrote, kept⟩ := Endpoint.handleWrite_spec (h.opened e here connected) w.result
    cases wrote.symm.trans run
    exact kept
  · obtain ⟨e, here, run⟩ := bind_eq_ok.mp run
    exact (Endpoint.handleWrite_status run).trans (connected e here)

theorem Kept.shut : Kept (SendWorld.exec .shut w) := by
  refine ⟨fun e' run => ?_, fun e' run connected => ?_⟩
  · obtain ⟨e, here, run⟩ := bind_eq_ok.mp run
    exact ((h.streams e here).shut run).1
  · obtain ⟨e, here, run⟩ := bind_eq_ok.mp run
    cases connected.symm.trans ((h.streams e here).shut run).2

end

/-- A call that suits runs, with its bytes as they were if it is a `Send`. -/
theorem Invariant.exec {d : State} (h : Invariant d) {f : LoopCall}
    (suits : Suits d f) (send : ∀ c, f = .send c → d.world.read c.data c.len = c.given ∧
      d.world.Connected) :
    Kept (SendWorld.exec f d.world) ∧
      ((∃ c, .send c ∈ d.queue) → d.world.Connected → (SendWorld.exec f d.world).Connected) := by
  cases f with
  | send c =>
    obtain ⟨held, connected⟩ := send c rfl
    obtain ⟨kept, still⟩ := h.kept.send held connected suits
    exact ⟨kept, fun _ _ => still⟩
  | handleWrite =>
    obtain ⟨kept, still⟩ := h.kept.handleWrite
    exact ⟨kept, fun _ => still⟩
  | shut => exact ⟨h.kept.shut, fun ⟨c, member⟩ => absurd member (suits c)⟩

/-- The steps of the dispatcher. A call that is queued holds what the memory holds now. -/
theorem Invariant.dispatcher {d d' : State} (h : Invariant d) {a : EventDispatcher.Act LoopCall}
    (taken : EventDispatcher.Steps SendWorld.exec d a d')
    (queued : ∀ i c, a = .runInEvd i (.send c) ∨ a = .syncRunInEvd i (.send c) →
      d.world.read c.data c.len = c.given ∧ d.world.Connected)
    (fromQueue : ∀ f, a = .loop → (d.batch.map Queued.functor).head? = some f → Suits d f)
    (direct : ∀ f, a = .handler f → Suits d f ∧
      ∀ c, f = .send c → d.world.read c.data c.len = c.given ∧ d.world.Connected) : Invariant d' := by
  rcases EventDispatcher.step_cases taken with ⟨world, queue⟩ | ⟨i, cb, act, world, queue⟩ |
    ⟨cb, rfl, head, queue, world⟩ | ⟨cb, rfl, queue, world⟩
  · exact ⟨queue ▸ world ▸ h.held, queue ▸ world ▸ h.waits, world ▸ h.kept⟩
  · have joined (c : SendCall) (member : .send c ∈ d'.queue) :
        d.world.read c.data c.len = c.given ∧ d.world.Connected := by
      rw [queue] at member
      rcases List.mem_append.mp member with old | new
      · exact ⟨h.held c old, h.waits c old⟩
      · cases List.mem_singleton.mp new
        exact queued i c act
    rw [← world] at joined
    exact ⟨fun c member => (joined c member).1, fun c member => (joined c member).2, world ▸ h.kept⟩
  · have old (c : SendCall) (member : .send c ∈ d'.queue) : .send c ∈ d.queue :=
      queue ▸ List.mem_cons_of_mem _ member
    obtain ⟨kept, still⟩ := h.exec (fromQueue cb rfl head) (by
      rintro c rfl
      have first : .send c ∈ d.queue := queue ▸ List.mem_cons_self
      exact ⟨h.held c first, h.waits c first⟩)
    refine ⟨fun c member => ?_, fun c member => ?_, world ▸ kept⟩
    · rw [world, read_congr (exec_memory cb d.world)]
      exact h.held c (old c member)
    · rw [world]
      exact still ⟨c, old c member⟩ (h.waits c (old c member))
  · obtain ⟨suits, send⟩ := direct cb rfl
    obtain ⟨kept, still⟩ := h.exec suits send
    refine ⟨fun c member => ?_, fun c member => ?_, world ▸ kept⟩
    · rw [world, read_congr (exec_memory cb d.world)]
      exact h.held c (queue ▸ member)
    · rw [world]
      exact still ⟨c, queue ▸ member⟩ (h.waits c (queue ▸ member))

/-- A handler of the loop thread. -/
theorem Invariant.handler {d d' : State} (h : Invariant d) {f : LoopCall} (suits : Suits d f)
    (send : ∀ c, f = .send c → d.world.read c.data c.len = c.given ∧ d.world.Connected)
    (taken : EventDispatcher.Steps SendWorld.exec d (.handler f) d') : Invariant d' := by
  apply h.dispatcher taken
  · rintro j c (same | same) <;> cases same
  · intro g same
    cases same
  · intro g same
    cases same
    exact ⟨suits, send⟩

theorem Invariant.step {d d' : State} (h : Invariant d) {a : Act} (careful : Undisturbed d a)
    (taken : Steps d a d') : Invariant d' := by
  cases a with
  | send i data len =>
    apply h.dispatcher (a := .runInEvd i (d.world.call data len)) taken
    · rintro j c (same | same) <;> cases same
      exact ⟨rfl, careful⟩
    · intro f same
      cases same
    · intro f same
      cases same
  | sendOnLoop data len =>
    refine h.handler (f := d.world.call data len) careful.2 ?_ taken
    intro c same
    cases same
    exact ⟨rfl, careful.1⟩
  | handleWrite => exact h.handler (f := .handleWrite) trivial (by simp) taken
  | handleEof => exact h.handler (f := .shut) careful (by simp) taken
  | forceClose i =>
    apply h.dispatcher (a := .syncRunInEvd i .shut) taken
    · rintro j c (same | same) <;> cases same
    · intro f same
      cases same
    · intro f same
      cases same
  | forceCloseOnLoop =>
    simp only [Steps, QueuedSend.step] at taken
    split at taken
    · exact h.handler (f := .shut) careful (by simp) taken
    · cases taken
      exact h
  | write addr b =>
    cases taken
    refine ⟨fun c member => ?_, h.waits, ⟨h.kept.streams, h.kept.opened⟩⟩
    exact (read_write (careful c member)).trans (h.held c member)
  | kernel result =>
    cases taken
    exact ⟨h.held, h.waits, ⟨h.kept.streams, h.kept.opened⟩⟩
  | caller i =>
    apply h.dispatcher (a := .caller i) taken
    · rintro j c (same | same) <;> cases same
    · intro f same
      cases same
    · intro f same
      cases same
  | loop =>
    apply h.dispatcher (a := .loop) taken
    · rintro j c (same | same) <;> cases same
    · exact fun f _ head => careful f head
    · intro f same
      cases same

/-- A loop with one established connection and nothing queued. -/
def start (wakeupFd eventfd : Int) (memory : Nat → Byte) (result : SendResult) (e : Endpoint) :
    State := .new wakeupFd eventfd { memory := memory, result := result, endpoint := .ok e }

/-- In every run whose writes leave the bytes of waiting calls alone, and in which nothing closes the
connection while a call waits, what goes into the outgoing stream is what stood at the pointers when
`Send` was called. -/
theorem sends_given (wakeupFd eventfd : Int) (memory : Nat → Byte) (result : SendResult)
    (e : Endpoint) (established : e.Established) (d : State)
    (run : Reaches Steps Undisturbed (start wakeupFd eventfd memory result e) d) : Faithful d := by
  have init : Invariant (start wakeupFd eventfd memory result e) := by
    refine ⟨fun c member => ?_, fun c member => ?_, fun e' same => ?_, fun e' same _ => ?_⟩
    · cases member
    · cases member
    · cases same
      exact established.invariant.streams
    · cases same
      exact established.invariant
  have kept := run.invariant init fun _ _ _ h careful taken => h.step careful taken
  exact fun e here => (kept.kept.streams e here).stream

/-- The condition is exact when the call runs: other bytes at the pointer than at the call are other
bytes in the stream, and on a closed connection none are. -/
theorem sends_disturbed {d d' : State} (h : Invariant d) {c : SendCall} {e e' : Endpoint}
    (head : (d.batch.map Queued.functor).head? = some (.send c)) (fits : Fits d.world c.data c.len)
    (here : d.world.endpoint = .ok e) (taken : Steps d .loop d') (alive : d'.world.endpoint = .ok e')
    (stream : Faithful d') :
    (e.conn.status = .CONNECTED → d.world.read c.data c.len = c.given) ∧
      (e.conn.status ≠ .CONNECTED → c.given = []) := by
  have looped : EventDispatcher.Steps SendWorld.exec d .loop d' := taken
  have world : d'.world = SendWorld.exec (.send c) d.world := by
    rcases EventDispatcher.step_cases looped with ⟨_, queue⟩ | ⟨i, cb, act, _⟩ |
      ⟨cb, _, head', queue, world⟩ | ⟨cb, act, _⟩
    · have running : ∃ q rest, d.batch = q :: rest := by
        cases batch : d.batch with
        | nil => simp [batch] at head
        | cons q rest => exact ⟨q, rest, rfl⟩
      obtain ⟨q, rest, batch⟩ := running
      have pc : d.loop = .running (q :: rest) := by
        unfold EventDispatcher.batch at batch
        split at batch
        · rename_i pc
          rw [pc, batch]
        · cases batch
      simp only [Steps, step, EventDispatcher.step, EventDispatcher.loopStep, pc, Option.some.injEq]
        at taken
      rw [← taken] at queue
      have longer := congrArg List.length queue
      simp [EventDispatcher.queue, EventDispatcher.batch, pc] at longer
    · rcases act with act | act <;> cases act
    · rw [head] at head'
      cases head'
      exact world
    · cases act
  have whole := stream e' alive
  rw [world] at alive whole
  have run : e.send (d.world.read c.data c.len) d.world.result = .ok e' := by
    simpa [SendWorld.exec, here] using alive
  constructor
  · intro connected
    have sent := Endpoint.send_invariant (h.kept.opened e here connected) (fits e here) run
    exact List.append_cancel_left (sent.stream.symm.trans whole)
  · intro closed
    unfold Endpoint.send at run
    rw [if_pos closed] at run
    cases run
    have same := (h.kept.streams e here).stream.symm.trans whole
    exact List.append_right_eq_self.mp same.symm

instance (e : Endpoint) (op : Endpoint.Op) : Decidable (e.StepFits op) :=
  inferInstanceAs (Decidable (_ ∨ _))

def fitsNow (w : SendWorld) (data len : Nat) : Bool :=
  match w.endpoint with
  | .ok e => decide (e.StepFits (.send (w.read data len) w.result))
  | .error _ => true

def noneWaits (d : State) : Bool := d.queue.all fun f =>
  match f with
  | .send _ => false
  | _ => true

/-- A check of `Undisturbed`. -/
def calm (d : State) : Act → Bool
  | .send .. => d.world.mayClose
  | .sendOnLoop data len => d.world.mayClose && fitsNow d.world data len
  | .write addr b => d.queue.all fun f =>
    match f with
    | .send c => c.data ≤ addr → addr < c.data + c.len → b = d.world.memory addr
    | _ => true
  | .handleEof | .forceCloseOnLoop => noneWaits d
  | .loop =>
    match (d.batch.map Queued.functor).head? with
    | some (.send c) => fitsNow d.world c.data c.len
    | some .shut => noneWaits d
    | _ => true
  | _ => true

theorem fitsNow_sound {w : SendWorld} {data len : Nat} (now : fitsNow w data len = true) :
    Fits w data len := by
  intro e here
  simp only [fitsNow, here] at now
  exact of_decide_eq_true now

theorem noneWaits_sound {d : State} (none : noneWaits d = true) : NoneWaits d := fun _ member =>
  absurd (List.all_eq_true.mp none _ member) Bool.false_ne_true

theorem mayClose_sound {w : SendWorld} (may : w.mayClose = true) : w.Connected := by
  intro e here
  simp only [SendWorld.mayClose, here] at may
  exact of_decide_eq_true may

theorem calm_sound (d : State) (a : Act) (check : calm d a = true) : Undisturbed d a := by
  cases a with
  | send => exact mayClose_sound check
  | sendOnLoop data len =>
    obtain ⟨connected, fits⟩ := (Bool.and_eq_true _ _).mp check
    exact ⟨mayClose_sound connected, fitsNow_sound fits⟩
  | write addr b =>
    intro c member
    exact of_decide_eq_true (List.all_eq_true.mp check _ member)
  | handleEof => exact noneWaits_sound check
  | forceCloseOnLoop => exact noneWaits_sound check
  | loop =>
    intro f head
    simp only [calm, head] at check
    cases f with
    | send c => exact fitsNow_sound check
    | handleWrite => trivial
    | shut => exact noneWaits_sound check
  | handleWrite => trivial
  | forceClose => trivial
  | kernel => trivial
  | caller => trivial

/-- Thread 1 sends one byte, uses its buffer again once the loop has run the functor, and sends that
byte too. Then the other side ends the connection. -/
theorem sends_given_twice : ∃ d, Reaches Steps Undisturbed
    (start 0 7 (fun _ => 97) (.takes 9) Endpoint.opened) d ∧
      (d.world.endpoint.map fun e => (e.conn.status, e.accepted)) = .ok (.CLOSED, ascii "ab") ∧
      d.world.given = ascii "ab" ∧ Faithful d := by
  have made : ([.send 1 100 1, .caller 1, .caller 1, .write 200 99, .loop, .loop, .loop, .loop,
      .write 100 98, .send 1 100 1, .caller 1, .caller 1, .loop, .loop, .loop, .loop, .loop, .loop,
      .loop, .loop, .loop, .loop, .loop, .handleEof].foldlM
        (fun d a => if calm d a then step d a else none)
        (start 0 7 (fun _ => 97) (.takes 9) Endpoint.opened)).any fun d =>
      (d.world.endpoint.map fun e => (e.conn.status, e.accepted)) = .ok (.CLOSED, ascii "ab") ∧
        d.world.given = ascii "ab" := by
    decide +kernel
  obtain ⟨d, run, test⟩ := (Option.any_eq_true _ _).mp made
  obtain ⟨ends, given⟩ := of_decide_eq_true test
  have reached := Reaches.of_checked step calm calm_sound _ run
  exact ⟨d, reached, ends, given, sends_given _ _ _ _ _ Endpoint.opened_established _ reached⟩

/-- The thread uses its buffer again before the loop has run the functor. Or the other side ends the
connection before. -/
theorem sends_overwritten :
    (∃ d, Reaches Steps Free (start 0 7 (fun _ => 97) (.takes 9) Endpoint.opened) d ∧
      d.world.given = ascii "a" ∧
      (d.world.endpoint.map fun e => e.accepted) = .ok (ascii "b") ∧ ¬ Faithful d) ∧
    ∃ d, Reaches Steps Free (start 0 7 (fun _ => 97) (.takes 9) Endpoint.opened) d ∧
      d.world.given = ascii "a" ∧
      (d.world.endpoint.map fun e => e.accepted) = .ok [] ∧ ¬ Faithful d := by
  constructor
  · have run := @Reaches.of_labels _ _ step [.send 1 100 1, .caller 1, .caller 1, .write 100 98, .loop,
      .loop, .loop, .loop] (start 0 7 (fun _ => 97) (.takes 9) Endpoint.opened) _ rfl
    refine ⟨_, run, rfl, rfl, ?_⟩
    intro stream
    have wrong := stream _ rfl
    revert wrong
    decide
  · have run := @Reaches.of_labels _ _ step [.loop, .send 1 100 1, .caller 1, .caller 1, .handleEof,
      .loop, .loop, .loop] (start 0 7 (fun _ => 97) (.takes 9) Endpoint.opened) _ rfl
    refine ⟨_, run, rfl, rfl, ?_⟩
    intro stream
    have wrong := stream _ rfl
    revert wrong
    decide

end QueuedSend
end Yamq
