import Yamq.Tcp.Closing
import Yamq.Tcp.Outgoing
import Yamq.Tcp.ServerRun

/-! What holds in every state of a server: a connected connection is registered with its loop under
its own descriptor, and its outgoing side is in order. -/
namespace Yamq

/-- epoll and `_channels` know the same descriptors. -/
def Registrations.Consistent (r : Registrations) : Prop :=
  ∀ fd, r.interest fd = none ↔ r.channels fd = none

/-- Nothing has changed but at one descriptor. -/
def Registrations.Beside (fd : Int) (r r' : Registrations) : Prop :=
  ∀ d, d ≠ fd → r'.interest d = r.interest d ∧ r'.channels d = r.channels d

namespace Endpoint

variable {e e' : Endpoint}

theorem handleWrite_small {result : SendResult} (small : e.conn.outputBuf.Small)
    (run : e.handleWrite result = .ok e') : e'.conn.outputBuf.Small := by
  obtain ⟨data, loaded, run⟩ := bind_eq_ok.mp run
  rw [IoBuffer.load_contents small.toLayout] at loaded
  cases loaded
  cases result with
  | fails errno =>
    cases run
    exact small
  | takes room =>
    by_cases none : e.conn.outputBuf.contents.take room = []
    · simp only [none, if_true] at run
      cases run
      exact small
    · simp only [none, if_false, drain, bind_eq_ok] at run
      obtain ⟨out, sought, run⟩ := run
      obtain ⟨out', sought', small', _⟩ := IoBuffer.seek_small small
        (List.length_take_le' room e.conn.outputBuf.contents)
      cases sought.symm.trans sought'
      split at run
      · obtain ⟨ch, _, run⟩ := bind_eq_ok.mp run
        cases run
        exact small'
      · cases run
        exact small'

end Endpoint
namespace ServerRun

open Lifecycle

/-- What a connected connection has. -/
structure Up (c : Lifecycle) : Prop where
  registered : c.Registered
  intact : ∃ given, c.endpoint.Invariant given

/-- A connection whose `establish` waits. -/
structure Young (p : Peer) : Prop where
  status : p.conn.status = .CONNECTING
  attached : p.conn.attached = false
  events : p.conn.events = EV_NONE
  output : p.conn.outputBuf = .new IoBuffer.kInitialSize
  accepted : p.accepted = []

structure Sane (s : ServerRun) : Prop where
  fresh : ∀ k, s.created ≤ k → s.peers k = none
  self : ∀ k p, s.peers k = some p → p.conn.self = k
  output : ∀ k p, s.peers k = some p → p.conn.outputBuf.Small
  up : ∀ k p, s.peers k = some p → p.conn.status = .CONNECTED → Up (s.view p)
  consistent : ∀ evd, (s.regs evd).Consistent
  young : ∀ k ∈ s.establishing, ∃ p, s.peers k = some p ∧ Young p
  once : s.establishing.Nodup
  grown : ∀ k ∈ s.closing, k < s.created ∧ k ∉ s.establishing

section
variable {s s' : ServerRun} {k : Nat} {p : Peer} {c : Lifecycle}

theorem Sane.created (h : Sane s) (here : s.peers k = some p) : k < s.created := by
  by_contra beyond
  rw [h.fresh k (Nat.not_lt.mp beyond)] at here
  cases here

/-- The descriptor of a connection that is registered, or is not watched at all, is no other
connected connection's on the same loop. -/
theorem Sane.apart (h : Sane s) (here : s.peers k = some p)
    (own : (s.view p).Registered ∨ (s.regs p.evd).interest p.conn.fd = none) {j : Nat} {q : Peer}
    (other : j ≠ k) (there : s.peers j = some q) (connected : q.conn.status = .CONNECTED)
    (same : q.evd = p.evd) : q.conn.fd ≠ p.conn.fd := by
  obtain ⟨registered, given, inv⟩ := h.up j q there connected
  have mine := h.self k p here
  have its := h.self j q there
  have watched := inv.watched.interest
  simp only [view, Lifecycle.Registered, same] at registered watched own
  intro fd
  rw [fd] at registered watched
  rcases own with here | none
  · rw [registered, mine, its] at here
    exact other (Option.some.inj here)
  · rw [none] at watched
    cases watched

theorem Up.congr {c c' : Lifecycle} (h : Up c) (conn : c'.endpoint.conn = c.endpoint.conn)
    (accepted : c'.endpoint.accepted = c.endpoint.accepted)
    (interest : c'.endpoint.regs.interest c.endpoint.conn.fd =
      c.endpoint.regs.interest c.endpoint.conn.fd)
    (channels : c'.endpoint.regs.channels c.endpoint.conn.fd =
      c.endpoint.regs.channels c.endpoint.conn.fd) : Up c' := by
  obtain ⟨registered, given, inv⟩ := h
  refine ⟨?_, given, ⟨?_, ?_, ?_⟩, ?_, ?_⟩
  · rw [Lifecycle.Registered, conn, channels]
    exact registered
  · rw [conn, accepted]
    exact inv.stream
  · rw [conn]
    exact inv.flag
  · rw [conn]
    refine ⟨inv.watched.attached, ?_⟩
    rw [interest]
    exact inv.watched.interest
  · rw [conn]
    exact inv.status
  · rw [conn]
    exact inv.small

/-- A call on the loop of a connection that leaves it in order and touches no other descriptor. -/
theorem Sane.store (h : Sane s) (here : s.peers k = some p) (self : c.endpoint.conn.self = k)
    (output : c.endpoint.conn.outputBuf.Small) (up : c.status = .CONNECTED → Up c)
    (consistent : c.endpoint.regs.Consistent)
    (beside : Registrations.Beside p.conn.fd (s.regs p.evd) c.endpoint.regs)
    (own : (s.view p).Registered ∨ (s.regs p.evd).interest p.conn.fd = none ∨
      c.endpoint.regs = s.regs p.evd)
    (young : k ∈ s.establishing →
      Young { p with conn := c.endpoint.conn, accepted := c.endpoint.accepted }) :
    Sane (s.store k p c) := by
  have created := h.created here
  have peer (j : Nat) : (s.store k p c).peers j = if j = k then
      some { p with conn := c.endpoint.conn, accepted := c.endpoint.accepted } else s.peers j := rfl
  have regs (evd : Nat) : (s.store k p c).regs evd =
      if evd = p.evd then c.endpoint.regs else s.regs evd := rfl
  refine ⟨?_, ?_, ?_, ?_, ?_, ?_, h.once, h.grown⟩
  · intro j beyond
    have beyond : s.created ≤ j := beyond
    rw [peer, if_neg (by omega)]
    exact h.fresh j beyond
  · intro j q there
    rw [peer] at there
    split at there
    · rename_i same
      cases there
      exact self.trans same.symm
    · exact h.self j q there
  · intro j q there
    rw [peer] at there
    split at there
    · cases there
      exact output
    · exact h.output j q there
  · intro j q there connected
    rw [peer] at there
    split at there
    · cases there
      refine (up connected).congr rfl rfl ?_ ?_
      · simp only [view, regs, if_true]
      · simp only [view, regs, if_true]
    · rename_i other
      have before := h.up j q there connected
      have kept : (s.store k p c).regs q.evd = s.regs q.evd ∨
          q.evd = p.evd ∧ q.conn.fd ≠ p.conn.fd := by
        rw [regs]
        split
        · rename_i same
          rcases own with mine | none | untouched
          · exact .inr ⟨same, h.apart here (.inl mine) other there connected same⟩
          · exact .inr ⟨same, h.apart here (.inr none) other there connected same⟩
          · left
            rw [untouched, same]
        · exact .inl rfl
      rcases kept with same | ⟨same, apart⟩
      · refine before.congr rfl rfl ?_ ?_
        · simp only [view, same]
        · simp only [view, same]
      · obtain ⟨interest, channels⟩ := beside q.conn.fd apart
        refine before.congr rfl rfl ?_ ?_
        · simp only [view, regs, same, if_true]
          exact interest
        · simp only [view, regs, same, if_true]
          exact channels
  · intro evd
    rw [regs]
    split
    · exact consistent
    · exact h.consistent evd
  · intro j member
    have member : j ∈ s.establishing := member
    rw [peer]
    split
    · rename_i same
      subst same
      exact ⟨_, rfl, young member⟩
    · exact h.young j member

/-! What the calls on a loop leave. -/

theorem removeChannel_registered {r r' : Registrations} {ch : Channel}
    (run : r.removeChannel ch = .ok r') : r.channels ch.fd = some ch.self := by
  unfold Registrations.removeChannel at run
  split at run
  · cases run
  · rename_i found there
    split at run
    · rename_i same
      rw [there, same]
    · cases run

/-- Both close callbacks of `multi::Server` remove the channel and leave the rest of the connection. -/
theorem closeConnect_removes {serving : Serving} {c c' : Lifecycle} (multi : serving ≠ .single)
    (run : c.closeConnect serving = .ok c') : ∃ regs,
      c.endpoint.regs.removeChannel c.endpoint.conn.toChannel = .ok regs ∧
        c'.endpoint = { c.endpoint with regs := regs } := by
  have removed {b x : Lifecycle} (same : b.endpoint = c.endpoint) (done : b.remove = .ok x) :
      ∃ regs, c.endpoint.regs.removeChannel c.endpoint.conn.toChannel = .ok regs ∧
        x.endpoint = { c.endpoint with regs := regs } := by
    obtain ⟨e, run, rfl⟩ := Closing.lift_ok done
    obtain ⟨regs, gone, run⟩ := bind_eq_ok.mp run
    cases run
    rw [same] at gone
    refine ⟨regs, gone, ?_⟩
    rw [← same]
  cases serving with
  | single => exact absurd rfl multi
  | alone =>
    obtain ⟨x, done, run⟩ := bind_eq_ok.mp run
    cases run
    have spec := removed (b := { c with callbacks := c.callbacks + 1 }) rfl done
    exact spec
  | worker =>
    obtain ⟨x, done, run⟩ := bind_eq_ok.mp run
    cases run
    have spec := removed (b := { c with callbacks := c.callbacks + 1 }) rfl done
    exact spec

/-- What a call that closes leaves. -/
structure Removed (c c' : Lifecycle) : Prop where
  status : c'.status = .CLOSED
  self : c'.endpoint.conn.self = c.endpoint.conn.self
  output : c'.endpoint.conn.outputBuf = c.endpoint.conn.outputBuf
  registered : c.Registered
  regs : ∃ ch : Channel, ch.fd = c.endpoint.conn.fd ∧
    c.endpoint.regs.removeChannel ch = .ok c'.endpoint.regs

theorem run_removes {serving : Serving} {c c' : Lifecycle} {f : LifeCall} (multi : serving ≠ .single)
    (shuts : Closing.Shuts c f) (run : f.run serving c = .ok c') : Removed c c' := by
  have removes {x y : Lifecycle} (closed : (c.setStatus .CLOSING).closeConnect serving = .ok x)
      (endpoint : y.endpoint = { x.endpoint with conn := { x.endpoint.conn with status := .CLOSED } }) :
      Removed c y := by
    obtain ⟨regs, removed, same⟩ := closeConnect_removes multi closed
    have registered := removeChannel_registered removed
    refine ⟨?_, ?_, ?_, registered, c.endpoint.conn.toChannel, rfl, ?_⟩
    · rw [Lifecycle.status, endpoint]
    · rw [endpoint, same]
      rfl
    · rw [endpoint, same]
      rfl
    · rw [endpoint, same]
      exact removed
  have closing {y : Lifecycle} (run : c.close serving = .ok y) : Removed c y := by
    obtain ⟨x, closed, run⟩ := bind_eq_ok.mp run
    cases run
    exact removes closed rfl
  cases f with
  | close => exact closing run
  | forceClose =>
    have connected : c.status = .CONNECTED := shuts
    rw [LifeCall.run, forceClose, if_neg (not_not_intro connected)] at run
    exact closing run
  | handleEof =>
    obtain ⟨x, closed, run⟩ := bind_eq_ok.mp run
    cases run
    exact removes closed rfl
  | establish | send _ _ | handleWrite _ | register _ | remove _ => exact absurd shuts not_false

theorem consistent_removed {r r' : Registrations} {ch : Channel} (h : r.Consistent)
    (run : r.removeChannel ch = .ok r') : r'.Consistent := by
  obtain ⟨channels, interest⟩ := Registrations.removeChannel_ok run
  intro fd
  rw [channels, interest]
  split
  · exact iff_of_true rfl rfl
  · exact h fd

theorem serving_multi (s : ServerRun) (p : Peer) : s.serving p ≠ .single := by
  unfold serving
  split <;> nofun

theorem Sane.shut (h : Sane s) (here : s.peers k = some p) {f : LifeCall}
    (shuts : Closing.Shuts (s.view p) f) (grown : k ∉ s.establishing)
    (run : f.run (s.serving p) (s.view p) = .ok c) : Sane (s.store k p c) := by
  have done := run_removes (s.serving_multi p) shuts run
  obtain ⟨ch, fd, removed⟩ := done.regs
  have fd : ch.fd = p.conn.fd := fd
  refine h.store here ?_ ?_ ?_ ?_ ?_ (.inl done.registered) (absurd · grown)
  · exact done.self.trans (h.self k p here)
  · rw [done.output]
    exact h.output k p here
  · intro connected
    rw [done.status] at connected
    cases connected
  · exact consistent_removed (h.consistent p.evd) removed
  · obtain ⟨channels, interest⟩ := Registrations.removeChannel_ok removed
    intro d other
    rw [channels, interest, if_neg (by rw [fd]; exact other), if_neg (by rw [fd]; exact other)]
    exact ⟨rfl, rfl⟩

/-- A call that only changes what the registered channel asks for. -/
theorem Sane.within (h : Sane s) (here : s.peers k = some p) {e : Endpoint}
    (within : Endpoint.Within (s.view p).endpoint e) (output : e.conn.outputBuf.Small)
    (intact : e.conn.status = .CONNECTED → ∃ given, e.Invariant given)
    (registered : e.conn.status = .CONNECTED → (s.view p).Registered)
    (own : (s.view p).Registered ∨ (s.regs p.evd).interest p.conn.fd = none ∨ e.regs = s.regs p.evd)
    (young : k ∈ s.establishing → Young { p with conn := e.conn, accepted := e.accepted }) :
    Sane (s.store k p { s.view p with endpoint := e }) := by
  refine h.store here ?_ output ?_ ?_ ?_ own young
  · exact within.self.trans (h.self k p here)
  · intro connected
    have connected : e.conn.status = .CONNECTED := connected
    refine ⟨?_, intact connected⟩
    have before := registered connected
    rw [Lifecycle.Registered] at before ⊢
    simp only
    rw [within.channels, within.fd, within.self]
    exact before
  · intro fd
    have before := h.consistent p.evd fd
    have channels : e.regs.channels = (s.regs p.evd).channels := within.channels
    simp only
    rw [channels, ← before]
    by_cases same : fd = p.conn.fd
    · rw [same]
      exact within.known
    · have beside : e.regs.interest fd = (s.regs p.evd).interest fd := within.beside fd same
      rw [beside]
  · intro d other
    have channels : e.regs.channels = (s.regs p.evd).channels := within.channels
    simp only
    rw [channels]
    exact ⟨within.beside d other, rfl⟩

theorem Sane.same (h : Sane s) (here : s.peers k = some p) : Sane (s.store k p (s.view p)) := by
  refine h.within here (.refl _) (h.output k p here) (fun connected => (h.up k p here connected).intact)
    (fun connected => (h.up k p here connected).registered) (.inr (.inr rfl)) ?_
  intro member
  obtain ⟨q, there, young⟩ := h.young k member
  cases here.symm.trans there
  exact young

theorem Sane.send (h : Sane s) (here : s.peers k = some p) {data : Bytes} {result : SendResult}
    (fits : p.conn.status = .CONNECTED → (s.view p).endpoint.StepFits (.send data result))
    {e : Endpoint} (run : (s.view p).endpoint.send data result = .ok e) :
    Sane (s.store k p { s.view p with endpoint := e }) := by
  by_cases connected : p.conn.status = .CONNECTED
  · obtain ⟨registered, given, inv⟩ := h.up k p here connected
    have sent := Endpoint.send_invariant inv (fits connected) run
    refine h.within here (Endpoint.Within.send (fun _ => inv.watched.attached) run) sent.small
      (fun _ => ⟨_, sent⟩) (fun _ => registered) (.inl registered) ?_
    intro member
    obtain ⟨q, there, young⟩ := h.young k member
    cases here.symm.trans there
    rw [young.status] at connected
    cases connected
  · have same : e = (s.view p).endpoint := by
      have down : (s.view p).endpoint.conn.status ≠ .CONNECTED := connected
      simp only [Endpoint.send, ne_eq, down, not_false_iff, if_true] at run
      cases run
      rfl
    subst same
    exact h.same here

theorem Sane.handleWrite (h : Sane s) (here : s.peers k = some p) {result : SendResult}
    (writing : s.Writing p) {e : Endpoint}
    (run : (s.view p).endpoint.handleWrite result = .ok e) :
    Sane (s.store k p { s.view p with endpoint := e }) := by
  have status := Endpoint.handleWrite_status run
  have intact (connected : e.conn.status = .CONNECTED) :
      (s.view p).Registered ∧ ∃ given, e.Invariant given := by
    obtain ⟨registered, given, inv⟩ := h.up k p here (status.symm.trans connected)
    obtain ⟨t, wrote, kept⟩ := Endpoint.handleWrite_spec inv result
    cases wrote.symm.trans run
    exact ⟨registered, given, kept⟩
  refine h.within here (Endpoint.Within.handleWrite writing.1 run)
    (Endpoint.handleWrite_small (h.output k p here) run) (fun connected => (intact connected).2)
    (fun connected => (intact connected).1) ?_ ?_
  · rcases writing.2 with registered | none
    · exact .inl registered
    · exact .inr (.inl none)
  · intro member
    obtain ⟨q, there, young⟩ := h.young k member
    cases here.symm.trans there
    have attached := writing.1
    rw [young.attached] at attached
    cases attached

/-- The first registration. -/
theorem establish_young {e e' : Endpoint} (attached : e.conn.attached = false)
    (events : e.conn.events = EV_NONE) (output : e.conn.outputBuf = .new IoBuffer.kInitialSize)
    (accepted : e.accepted = []) (consistent : e.regs.Consistent) (run : e.establish = .ok e') :
    e.regs.interest e.conn.fd = none ∧ e'.Established ∧ e'.conn.self = e.conn.self ∧
      e'.conn.fd = e.conn.fd ∧ e'.regs.channels e.conn.fd = some e.conn.self ∧
      Registrations.Beside e.conn.fd e.regs e'.regs ∧ e'.regs.Consistent := by
  have quiet : e.conn.isWritable = false := by
    rw [Channel.isWritable, events]
    rfl
  have whole := run
  simp only [Endpoint.establish, Channel.enableRead, Channel.setEvents, Channel.update, attached,
    Bool.false_eq_true, if_false, bind_eq_ok, Registrations.registerChannel, Registrations.add] at run
  obtain ⟨x, ⟨r, ⟨r1, added, registered⟩, same⟩, run⟩ := run
  split at added
  · rename_i free
    have none := (consistent e.conn.fd).mp free.2
    cases added
    cases registered
    cases same
    cases run
    refine ⟨free.2, Endpoint.establish_established quiet (.inl ⟨free.1, attached, free.2⟩) output accepted
      whole, rfl, rfl, ?_, ?_, ?_⟩
    · simp [Endpoint.setChannel, Registrations.watch, none]
    · intro d other
      simp [Endpoint.setChannel, Registrations.watch, other]
    · intro d
      by_cases here : d = e.conn.fd
      · subst here
        simp [Endpoint.setChannel, Registrations.watch, none]
      · simp [Endpoint.setChannel, Registrations.watch, here, consistent d]
  · cases added

theorem Sane.establish (h : Sane s) (here : s.peers k = some p) (young : Young p)
    (grown : k ∉ s.establishing) {e : Endpoint} (run : (s.view p).endpoint.establish = .ok e) :
    Sane (s.store k p { s.view p with endpoint := e }) := by
  obtain ⟨free, established, self, fd, channels, beside, consistent⟩ :=
    establish_young young.attached young.events young.output young.accepted (h.consistent p.evd) run
  have inv := established.invariant
  refine h.store here (self.trans (h.self k p here)) inv.small ?_ consistent beside
    (.inr (.inl free)) (absurd · grown)
  intro _
  refine ⟨?_, _, inv⟩
  rw [Lifecycle.Registered]
  simp only
  rw [fd, self]
  exact channels

theorem Sane.congr (h : Sane s) (peers : s'.peers = s.peers) (created : s'.created = s.created)
    (regs : s'.regs = s.regs) (establishing : s'.establishing = s.establishing)
    (closing : ∀ k ∈ s'.closing, k ∈ s.closing) : Sane s' := by
  have views (p : Peer) : s'.view p = s.view p := by rw [view, view, regs]
  refine ⟨?_, ?_, ?_, ?_, ?_, ?_, ?_, ?_⟩
  · rw [peers, created]
    exact h.fresh
  · rw [peers]
    exact h.self
  · rw [peers]
    exact h.output
  · intro k p here
    rw [peers] at here
    rw [views]
    exact h.up k p here
  · rw [regs]
    exact h.consistent
  · rw [peers, establishing]
    exact h.young
  · rw [establishing]
    exact h.once
  · intro k member
    rw [created, establishing]
    exact h.grown k (closing k member)

theorem Sane.take (h : Sane s) : Sane { s with establishing := s.establishing.erase k } where
  fresh := h.fresh
  self := h.self
  output := h.output
  up := h.up
  consistent := h.consistent
  young := fun j member => h.young j (List.mem_of_mem_erase member)
  once := h.once.erase k
  grown := fun j member => ⟨(h.grown j member).1, fun later =>
    (h.grown j member).2 (List.mem_of_mem_erase later)⟩

theorem Sane.create (h : Sane s) (fd id nextId : Int) (evd : Nat) (dispatchers : Dispatchers) :
    Sane { s.put s.created { conn := { self := s.created, fd := fd, id := id }, evd := evd } with
      nextId := nextId, dispatchers := dispatchers, created := s.created + 1 } := by
  have none := h.fresh s.created (Nat.le_refl _)
  have peer (j : Nat) : (s.put s.created
      { conn := { self := s.created, fd := fd, id := id }, evd := evd }).peers j =
        if j = s.created then
          some { conn := { self := s.created, fd := fd, id := id }, evd := evd } else s.peers j := rfl
  refine ⟨?_, ?_, ?_, ?_, h.consistent, ?_, h.once, ?_⟩
  · intro j beyond
    have beyond : s.created + 1 ≤ j := beyond
    simp only
    rw [peer, if_neg (by omega)]
    exact h.fresh j (by omega)
  · intro j q there
    simp only at there
    rw [peer] at there
    split at there
    · rename_i same
      cases there
      exact same.symm
    · exact h.self j q there
  · intro j q there
    simp only at there
    rw [peer] at there
    split at there
    · cases there
      exact IoBuffer.new_small _ (by decide)
    · exact h.output j q there
  · intro j q there connected
    simp only at there
    rw [peer] at there
    split at there
    · cases there
      cases connected
    · exact h.up j q there connected
  · intro j member
    obtain ⟨q, there, young⟩ := h.young j member
    simp only
    rw [peer]
    split
    · rename_i same
      rw [same, none] at there
      cases there
    · exact ⟨q, there, young⟩
  · intro j member
    exact ⟨Nat.lt_succ_of_lt (h.grown j member).1, (h.grown j member).2⟩

theorem perform_eq_ok {f : LifeCall} : s.perform k f = .ok s' ↔ ∃ p c, s.peers k = some p ∧
    f.run (s.serving p) (s.view p) = .ok c ∧ s' = s.store k p c := by
  unfold perform
  cases here : s.peers k with
  | none => simp
  | some p =>
    cases run : f.run (s.serving p) (s.view p) with
    | error stopped => simp [run]
    | ok c =>
      simp only [run, Except.ok.injEq, Option.some.injEq]
      constructor
      · intro same
        exact ⟨p, c, rfl, run, same.symm⟩
      · rintro ⟨q, c', rfl, run', same⟩
        cases run.symm.trans run'
        exact same.symm

theorem Sane.newConnect (h : Sane s) {sockfd : Int} (run : s.newConnect sockfd = .ok s') : Sane s' := by
  simp only [ServerRun.newConnect, bind_eq_ok] at run
  obtain ⟨id, _, ⟨evd, dispatchers⟩, _, t, served, run⟩ := run
  cases run
  have created := h.create sockfd id id evd dispatchers
  have late : s.created ∉ s.establishing := by
    intro member
    obtain ⟨q, there, _⟩ := h.young _ member
    rw [h.fresh _ (Nat.le_refl _)] at there
    cases there
  have young : Young { conn := { self := s.created, fd := sockfd, id := id }, evd := evd } :=
    ⟨rfl, rfl, rfl, rfl, rfl⟩
  have kept : Sane t := by
    unfold runEstablish at served
    split at served
    · obtain ⟨p, c, here, ran, rfl⟩ := perform_eq_ok.mp served
      have same : p = { conn := { self := s.created, fd := sockfd, id := id }, evd := evd } := by
        have there := here
        simp only [put, if_true] at there
        exact (Option.some.inj there).symm
      subst same
      obtain ⟨e, done, rfl⟩ := Closing.lift_ok ran
      exact created.establish here young late done
    · cases served
      refine ⟨created.fresh, created.self, created.output, created.up, created.consistent, ?_, ?_, ?_⟩
      · intro j member
        rw [List.mem_append, List.mem_singleton] at member
        rcases member with old | rfl
        · exact created.young j old
        · exact ⟨_, if_pos rfl, young⟩
      · refine List.nodup_append.mpr ⟨h.once, by simp, ?_⟩
        rintro a old b new rfl
        rw [List.mem_singleton] at new
        exact late (new ▸ old)
      · intro j member
        have before := h.grown j member
        refine ⟨Nat.lt_succ_of_lt before.1, ?_⟩
        rw [List.mem_append, List.mem_singleton, not_or]
        exact ⟨before.2, Nat.ne_of_lt before.1⟩
  exact kept.congr rfl rfl rfl rfl (fun _ member => member)

theorem Sane.input (h : Sane s) (here : s.peers k = some p) (buf : IoBuffer)
    (grown : k ∉ s.establishing) :
    Sane (s.put k { p with conn := { p.conn with inputBuf := buf } }) := by
  have created := h.created here
  have peer (j : Nat) : (s.put k { p with conn := { p.conn with inputBuf := buf } }).peers j =
      if j = k then some { p with conn := { p.conn with inputBuf := buf } } else s.peers j := rfl
  refine ⟨?_, ?_, ?_, ?_, h.consistent, ?_, h.once, h.grown⟩
  · intro j beyond
    have beyond : s.created ≤ j := beyond
    rw [peer, if_neg (by omega)]
    exact h.fresh j beyond
  · intro j q there
    rw [peer] at there
    split at there
    · rename_i same
      cases there
      exact (h.self k p here).trans same.symm
    · exact h.self j q there
  · intro j q there
    rw [peer] at there
    split at there
    · cases there
      exact h.output k p here
    · exact h.output j q there
  · intro j q there connected
    rw [peer] at there
    split at there
    · cases there
      obtain ⟨registered, given, inv⟩ := h.up k p here connected
      exact ⟨registered, given, ⟨⟨inv.stream, inv.flag, ⟨inv.watched.attached, inv.watched.interest⟩⟩,
        inv.status, inv.small⟩⟩
    · exact h.up j q there connected
  · intro j member
    rw [peer]
    split
    · rename_i same
      exact absurd (same ▸ member) grown
    · exact h.young j member

theorem Sane.not_young (h : Sane s) (here : s.peers k = some p) (attached : p.conn.attached = true) :
    k ∉ s.establishing := by
  intro member
  obtain ⟨q, there, young⟩ := h.young k member
  cases here.symm.trans there
  have free := young.attached
  rw [attached] at free
  cases free

theorem Sane.handleRead (h : Sane s) (here : s.peers k = some p) {result : IoBuffer.ReadResult}
    (registered : s.Registered p) (run : s.handleRead k result = .ok s') : Sane s' := by
  have grown := h.not_young here registered.1
  simp only [ServerRun.handleRead, here, bind_eq_ok] at run
  obtain ⟨⟨n, buf⟩, _, run⟩ := run
  have read := h.input here buf grown
  split at run
  · cases run
    exact read
  · obtain ⟨q, c, there, ran, rfl⟩ := perform_eq_ok.mp run
    exact read.shut (f := .handleEof) there trivial grown ran

/-- The `Put` of a `send` that runs fits. -/
def Fits (s : ServerRun) : ServerOp → Prop
  | .send k data result => ∀ p, s.peers k = some p → p.conn.status = .CONNECTED →
      (s.view p).endpoint.StepFits (.send data result)
  | _ => True

theorem Sane.step (h : Sane s) {op : ServerOp} (fits : Fits s op) (taken : Steps s op s') :
    Sane s' := by
  unfold Steps ServerRun.step at taken
  cases op with
  | accept result =>
    have run := Option.some.inj taken
    rw [handleAccept, bind_eq_ok] at run
    obtain ⟨fd, _, run⟩ := run
    exact h.newConnect run
  | establish k =>
    simp only at taken
    split at taken
    · rename_i member
      obtain ⟨p, c, here, ran, rfl⟩ := perform_eq_ok.mp (Option.some.inj taken)
      obtain ⟨q, there, young⟩ := h.young k member
      cases there.symm.trans here
      obtain ⟨e, done, rfl⟩ := Closing.lift_ok ran
      have left : k ∉ s.establishing.erase k := by
        rw [h.once.mem_erase_iff]
        exact fun both => both.1 rfl
      exact h.take.establish here young left done
    · cases taken
  | read k result =>
    obtain ⟨p, here, taken⟩ := Option.bind_eq_some_iff.mp taken
    split at taken
    · rename_i registered
      exact h.handleRead here registered (Option.some.inj taken)
    · cases taken
  | handleWrite k result =>
    obtain ⟨p, here, taken⟩ := Option.bind_eq_some_iff.mp taken
    split at taken
    · rename_i writing
      obtain ⟨q, c, there, ran, rfl⟩ := perform_eq_ok.mp (Option.some.inj taken)
      cases here.symm.trans there
      obtain ⟨e, done, rfl⟩ := Closing.lift_ok ran
      exact h.handleWrite here writing done
    · cases taken
  | send k data result =>
    obtain ⟨p, here, taken⟩ := Option.bind_eq_some_iff.mp taken
    obtain ⟨q, c, there, ran, rfl⟩ := perform_eq_ok.mp (Option.some.inj taken)
    cases here.symm.trans there
    obtain ⟨e, done, rfl⟩ := Closing.lift_ok ran
    exact h.send here (fits p here) done
  | forceClose k =>
    obtain ⟨p, here, taken⟩ := Option.bind_eq_some_iff.mp taken
    obtain ⟨q, c, there, ran, rfl⟩ := perform_eq_ok.mp (Option.some.inj taken)
    cases here.symm.trans there
    by_cases connected : p.conn.status = .CONNECTED
    · have grown := h.not_young here (by
        obtain ⟨_, given, inv⟩ := h.up k p here connected
        exact inv.watched.attached)
      exact h.shut (f := .forceClose) here connected grown ran
    · have same : c = s.view p := by
        have down : (s.view p).status ≠ .CONNECTED := connected
        rw [LifeCall.run, forceClose, if_pos down] at ran
        cases ran
        rfl
      subst same
      exact h.same here
  | testClose k =>
    obtain ⟨p, here, taken⟩ := Option.bind_eq_some_iff.mp taken
    split at taken
    · rename_i connected
      cases taken
      have grown := h.not_young here (by
        obtain ⟨_, given, inv⟩ := h.up k p here connected
        exact inv.watched.attached)
      refine ⟨h.fresh, h.self, h.output, h.up, h.consistent, h.young, h.once, ?_⟩
      intro j member
      rw [List.mem_append, List.mem_singleton] at member
      rcases member with old | rfl
      · exact h.grown j old
      · exact ⟨h.created here, grown⟩
    · cases taken
  | close k =>
    simp only at taken
    split at taken
    · rename_i member
      obtain ⟨p, c, here, ran, rfl⟩ := perform_eq_ok.mp (Option.some.inj taken)
      have kept : Sane { s with closing := s.closing.erase k } :=
        h.congr rfl rfl rfl rfl (fun _ member => List.mem_of_mem_erase member)
      exact kept.shut (f := .close) here trivial (h.grown k member).2 ran
    · cases taken
  | erase id =>
    simp only at taken
    split at taken
    · cases taken
      exact h.congr rfl rfl rfl rfl (fun _ member => member)
    · cases taken

end

end ServerRun
end Yamq
