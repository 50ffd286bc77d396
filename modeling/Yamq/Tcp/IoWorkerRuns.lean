import Yamq.Tcp.IoWorker
import Yamq.Lib.Transition

/-! The runs of `multi::Server` with its workers: which loop a connection gets, and the destructor. -/
namespace Yamq.MultiServer

open Transition Ownership

variable {n : Nat} {s s' : MultiServer n} {k i : Nat} {f : Fault} {a : ServerAct} {main : MainPc}

/-- The loop of connection `j` when they are given out in turn. -/
def loopOf (s : MultiServer n) (j : Nat) : Option Nat :=
  if n = 0 then some s.dispatchers.evd else s.dispatchers.evds[j % n]?

structure Balanced (s : MultiServer n) : Prop where
  index : s.dispatchers.nextEvdId = if n = 0 then 0 else s.connections.length % n
  each : ∀ j evd, s.connections[j]? = some evd → s.loopOf j = some evd

theorem Balanced.calm (h : Balanced s) (calm : Calm s s') : Balanced s' where
  index := by rw [calm.index, calm.connections, h.index]
  each j evd found := by
    have old := h.each j evd (by rwa [calm.connections] at found)
    rw [loopOf] at old ⊢
    split_ifs at old ⊢
    · rwa [calm.evd]
    · obtain ⟨more, eq⟩ := calm.evds
      have inside := (List.getElem?_eq_some_iff.mp old).1
      rw [← eq, List.getElem?_append_left inside]
      exact old

theorem Sound.alive (h : Sound s) (at_ : s.main = .serving) {j evd : Nat}
    (loop : s.loopOf j = some evd) : s.heap.cells evd = some false := by
  rw [loopOf] at loop
  split_ifs at loop with none
  · cases loop
    exact (view_at rfl).symm.trans h.server
  · have ready : stage n s.main (j % n) = .ready := by
      rw [at_]
      exact if_pos (Nat.mod_lt _ (Nat.pos_of_ne_zero none))
    obtain ⟨p, ew, -, found⟩ := h.ready ready
    have named := h.named _ _ loop ready
    rw [ew] at named
    cases named
    exact found

theorem nextEvd_turn (b : Balanced s) (length : s.dispatchers.evds.length = n) :
    ∃ evd, s.loopOf s.connections.length = some evd ∧ s.dispatchers.nextEvd = .ok (evd,
      { s.dispatchers with nextEvdId := if n = 0 then 0 else (s.connections.length + 1) % n }) := by
  have index := b.index
  rw [Dispatchers.nextEvd, loopOf]
  split_ifs at index ⊢ with none empty empty
  · refine ⟨_, rfl, ?_⟩
    rw [← index]
  · exact absurd (List.length_eq_zero_iff.mp (length.trans none)) empty
  · exact absurd (length.symm.trans (List.length_eq_zero_iff.mpr empty)) none
  · have inside : s.connections.length % n < s.dispatchers.evds.length := by
      rw [length]
      exact Nat.mod_lt _ (Nat.pos_of_ne_zero none)
    refine ⟨_, List.getElem?_eq_getElem inside, ?_⟩
    rw [index, List.getElem?_eq_getElem inside, length]
    have next : (if n ≤ s.connections.length % n + 1 then 0 else s.connections.length % n + 1) =
        (s.connections.length + 1) % n := by
      rw [← Nat.mod_add_mod]
      split_ifs with last
      · have round : s.connections.length % n + 1 = n := by omega
        rw [round, Nat.mod_self]
      · exact (Nat.mod_eq_of_lt (Nat.not_le.mp last)).symm
    simp only [next]

/-- Where the loop of a connection lies. -/
theorem Sound.apart (h : Sound s) (at_ : s.main = .serving) {j evd : Nat}
    (loop : s.loopOf j = some evd) : evd = s.dispatchers.evd ↔ n = 0 := by
  rw [loopOf] at loop
  split_ifs at loop with none
  · cases loop
    exact iff_of_true rfl none
  · refine iff_of_false ?_ none
    have ready : stage n s.main (j % n) = .ready := by
      rw [at_]
      exact if_pos (Nat.mod_lt _ (Nat.pos_of_ne_zero none))
    obtain ⟨p, ew, at_p, -⟩ := h.ready ready
    have named := h.named _ _ loop ready
    rw [ew] at named
    cases named
    rintro rfl
    exact absurd (h.owned.alone (some (j % n)) .none _ at_p rfl) (by simp)

/-- The steps that end in the `LOG(FATAL)` of `Wakeup`, when the `write` fails: `Stop`, of the server for a
loop that is still there and of a dispatcher that is deleted, and a new connection for a loop that runs
its functors. -/
def Aborts (s : MultiServer n) : ServerAct → Prop
  | .main wrote => wrote = false ∧ ∃ i p, s.main = .waking i p ∧ s.heap.cells p ≠ none
  | .worker k wrote => wrote = false ∧ (s.workers k).pc = .left
  | .newConnect calling wrote => wrote = false ∧ s.main = .serving ∧ n ≠ 0 ∧ calling = true
  | .destroy => False

theorem connects (h : Sound s) (b : Balanced s) (at_ : s.main = .serving) {calling wrote : Bool}
    (written : ¬ Aborts s (.newConnect calling wrote)) :
    ∃ s', s.newConnect calling wrote = .ok s' ∧ Sound s' ∧ Balanced s' ∧ s'.rank = s.rank ∧
      s'.main = s.main ∧ s'.dispatchers.evd = s.dispatchers.evd ∧
      s'.dispatchers.evds = s.dispatchers.evds := by
  obtain ⟨evd, loop, picked⟩ := nextEvd_turn b (h.length.trans (by rw [at_]; rfl))
  have alive := h.alive at_ loop
  have told : s.runInEvd evd calling wrote = .ok () := by
    simp only [runInEvd, follow_at alive, ok_bind, ne_eq, h.apart at_ loop]
    split_ifs with wakes
    · have wrote_ : wrote = true := by
        by_contra lost
        exact written ⟨Bool.eq_false_iff.mpr lost, at_, wakes.1, wakes.2⟩
      rw [wrote_, wakeup_at alive]
      rfl
    · rfl
  have run : s.newConnect calling wrote = .ok { s with
      dispatchers := { s.dispatchers with
        nextEvdId := if n = 0 then 0 else (s.connections.length + 1) % n }
      connections := s.connections ++ [evd] } := by
    simp only [newConnect, if_pos (h.running at_), picked, ok_bind, told, pure_ok]
  refine ⟨_, run, h.onward rfl rfl h.stages h.within h.length h.named h.running,
    ⟨?_, fun j q found => ?_⟩, rfl, rfl, rfl, rfl⟩
  · simp only [List.length_append, List.length_singleton]
  · change (s.connections ++ [evd])[j]? = some q at found
    change s.loopOf j = some q
    rcases Nat.lt_trichotomy j s.connections.length with old | rfl | beyond
    · rw [List.getElem?_append_left old] at found
      exact b.each j q found
    · rw [List.getElem?_concat_length] at found
      cases found
      exact loop
    · rw [List.getElem?_eq_none (by rw [List.length_append]; exact beyond)] at found
      cases found

theorem connects_fails (h : Sound s) (b : Balanced s) {calling wrote : Bool}
    (aborts : Aborts s (.newConnect calling wrote)) : s.newConnect calling wrote = .error .abort := by
  obtain ⟨rfl, at_, some_, rfl⟩ := aborts
  obtain ⟨evd, loop, picked⟩ := nextEvd_turn b (h.length.trans (by rw [at_]; rfl))
  have alive := follow_at (h.alive at_ loop)
  have told : s.runInEvd evd true false = .error .abort := by
    simp only [runInEvd, alive, ok_bind, ne_eq, h.apart at_ loop, some_, not_false_iff, and_self, if_true,
      wakeup]
    rfl
  simp only [newConnect, if_pos (h.running at_), picked, ok_bind, told, error_bind]

theorem new_sound (n : Nat) : Sound (new n) := by
  have empty : Owned (Heap.empty : Heap Bool) fun _ : Option Nat => none := .empty fun _ => rfl
  obtain ⟨owned, sees⟩ := empty.alloc (i := none) rfl false
  have own : (new n).own = Function.update (fun _ => none) none (some 0) := by
    funext k
    cases k with
    | none => rfl
    | some k => rfl
  have seen : (new n).stops =
      Function.update (view Heap.empty fun _ : Option Nat => none) none (some false) := by
    rw [stops, own]
    exact sees
  refine ⟨?_, ?_, fun k => rfl, Nat.zero_le n, rfl, fun k p found => ?_, by simp [new]⟩
  · rw [own]
    exact owned
  · rw [seen, Function.update_self]
  · cases found

theorem new_balanced (n : Nat) : Balanced (new n) := by
  refine ⟨?_, fun j evd found => ?_⟩
  · simp [new]
  · cases found

/-- What a step of any thread does. -/
theorem stepped (h : Sound s) (b : Balanced s) (a : ServerAct) : s.step a = none ∨
    (∃ s', s.step a = some (.ok s') ∧ Sound s' ∧ Balanced s' ∧
      s'.rank + (if a.isNewConnect then 0 else 1) = s.rank) ∨
    (s.step a = some (.error .useAfterFree) ∧ (∃ wrote, a = .main wrote) ∧
      ∃ i p, s.main = .waking i p ∧ s.heap.cells p = none) ∨
    (s.step a = some (.error .abort) ∧ Aborts s a) := by
  cases a with
  | main wrote =>
    have written : s.mainStep wrote = s.mainStep true ∨
        s.mainStep wrote = some (.error .abort) ∧ Aborts s (.main wrote) := by
      cases wrote with
      | true => exact .inl rfl
      | false => exact (mainStep_wrote s).imp_right fun fails => ⟨fails.2, rfl, fails.1⟩
    rcases written with same | fails
    · rw [step, same]
      rcases h.mainStep with none | ⟨s', moves⟩ | ⟨fault, dead⟩
      · exact .inl none
      · exact .inr (.inl ⟨s', moves.taken, moves.sound, b.calm moves.calm, moves.rank⟩)
      · exact .inr (.inr (.inl ⟨fault, ⟨wrote, rfl⟩, dead⟩))
    · exact .inr (.inr (.inr fails))
  | worker k wrote =>
    have written : s.workerStep k wrote = s.workerStep k true ∨
        s.workerStep k wrote = some (.error .abort) ∧ Aborts s (.worker k wrote) := by
      cases wrote with
      | true => exact .inl rfl
      | false => exact (workerStep_wrote s k).imp_right fun fails => ⟨fails.2, rfl, fails.1⟩
    rcases written with same | fails
    · rw [step, same]
      rcases h.worker k with none | ⟨at_, s', moves⟩
      · exact .inl none
      · exact .inr (.inl ⟨s', moves.taken, moves.sound, b.calm moves.calm, moves.ranked at_⟩)
    · exact .inr (.inr (.inr fails))
  | newConnect calling wrote =>
    by_cases at_ : s.main = .serving
    · rw [step, if_pos at_]
      by_cases aborts : Aborts s (.newConnect calling wrote)
      · exact .inr (.inr (.inr ⟨by rw [connects_fails h b aborts], aborts⟩))
      · obtain ⟨s', run, sound, balanced, rank, -⟩ := connects h b at_ aborts
        exact .inr (.inl ⟨s', by rw [run], sound, balanced, rank⟩)
    · exact .inl (if_neg at_)
  | destroy =>
    by_cases at_ : s.main = .serving
    · obtain ⟨sound, rank⟩ := h.destroy at_
      exact .inr (.inl ⟨_, if_pos at_, sound, b.calm (.same rfl rfl), rank⟩)
    · exact .inl (if_neg at_)

theorem kept (h : Sound s ∧ Balanced s) (taken : Steps s a s') : (Sound s' ∧ Balanced s') ∧
    s'.rank + (if a.isNewConnect then 0 else 1) = s.rank := by
  rcases stepped h.1 h.2 a with none | ⟨t, run, sound, balanced, rank⟩ | ⟨fault, -⟩ | ⟨fault, -⟩
  · cases none.symm.trans taken
  · cases run.symm.trans taken
    exact ⟨⟨sound, balanced⟩, rank⟩
  · cases fault.symm.trans taken
  · cases fault.symm.trans taken

theorem reached {Allowed : MultiServer n → ServerAct → Prop} (run : Reaches Steps Allowed (new n) s) :
    Sound s ∧ Balanced s :=
  run.invariant ⟨new_sound n, new_balanced n⟩ fun _ _ _ good _ taken => (kept good taken).1

theorem aborts_step (h : Sound s) (b : Balanced s) (aborts : Aborts s a) :
    s.step a = some (.error .abort) := by
  cases a with
  | main wrote =>
    obtain ⟨rfl, i, p, at_, alive⟩ := aborts
    exact mainStep_fails at_ alive
  | worker k wrote =>
    obtain ⟨rfl, left⟩ := aborts
    rcases h.worker k with none | ⟨-, s', moves⟩
    · simp [workerStep, left] at none
    · exact workerStep_fails left moves.taken
  | newConnect calling wrote =>
    rw [step, if_pos aborts.2.1, connects_fails h b aborts]
  | destroy => exact aborts.elim

theorem faults_iff (h : Sound s) (b : Balanced s) : s.step a = some (.error f) ↔
    (f = .useAfterFree ∧ (∃ wrote, a = .main wrote) ∧
      ∃ i p, s.main = .waking i p ∧ s.heap.cells p = none) ∨ f = .abort ∧ Aborts s a := by
  constructor
  · intro fault
    rcases stepped h b a with none | ⟨t, run, -⟩ | ⟨taken, main, dead⟩ | ⟨taken, aborts⟩
    · cases none.symm.trans fault
    · cases run.symm.trans fault
    · cases taken.symm.trans fault
      exact .inl ⟨rfl, main, dead⟩
    · cases taken.symm.trans fault
      exact .inr ⟨rfl, aborts⟩
  · rintro (⟨rfl, ⟨wrote, rfl⟩, i, p, at_, dead⟩ | ⟨rfl, aborts⟩)
    · simp only [step, MultiServer.mainStep, at_, wakeup, follow_dead dead]
      rfl
    · exact aborts_step h b aborts

/-- A new connection changes the index of the next loop only. -/
theorem connect_keeps (h : Sound s) (b : Balanced s) (at_ : s.main = .serving) {calling wrote : Bool}
    (taken : Steps s (.newConnect calling wrote) s') : s'.main = s.main ∧
      s'.dispatchers.evd = s.dispatchers.evd ∧ s'.dispatchers.evds = s.dispatchers.evds := by
  have run : s.newConnect calling wrote = .ok s' := by
    rw [Steps, step, if_pos at_] at taken
    exact Option.some.inj taken
  by_cases aborts : Aborts s (.newConnect calling wrote)
  · cases (connects_fails h b aborts).symm.trans run
  · obtain ⟨t, connected, -, -, -, kept⟩ := connects h b at_ aborts
    cases connected.symm.trans run
    exact kept

theorem connects_iff (h : Sound s) (b : Balanced s) (at_ : s.main = .serving) {calling wrote : Bool} :
    (∃ s', s.newConnect calling wrote = .ok s') ↔ n = 0 ∨ calling = false ∨ wrote = true := by
  have iff_ : Aborts s (.newConnect calling wrote) ↔ ¬ (n = 0 ∨ calling = false ∨ wrote = true) := by
    simp only [Aborts, at_, true_and, not_or, Bool.not_eq_false, Bool.not_eq_true]
    exact ⟨fun ⟨lost, some_, told⟩ => ⟨some_, told, lost⟩, fun ⟨some_, told, lost⟩ => ⟨lost, some_, told⟩⟩
  rw [← not_iff_not, ← iff_]
  constructor
  · intro fails
    by_contra written
    obtain ⟨s', run, -⟩ := connects h b at_ written
    exact fails ⟨s', run⟩
  · rintro aborts ⟨s', run⟩
    cases (connects_fails h b aborts).symm.trans run

/-- The server waits for a worker only while the worker goes on. -/
theorem goes_on (h : Sound s) (serving : s.main ≠ .serving) (done : s.main ≠ .done) :
    s.mainStep true ≠ none ∨ ∃ k, At s.main k ∧ (∀ p, s.main ≠ .waking k p) ∧ ∃ s', WorkerMoves s k s' := by
  have moved {r : Except Fault (MultiServer n)} (taken : s.mainStep true = some r) : s.mainStep true ≠ none := by
    rw [taken]
    exact Option.some_ne_none r
  cases at_ : s.main with
  | constructing i =>
    obtain ⟨s', moves⟩ := main_constructing h at_
    exact .inl (moved moves.taken)
  | spinning i =>
    rcases main_spinning h at_ with ⟨-, waits⟩ | ⟨s', moves⟩
    · have here : stage n s.main i = .starting := by
        rw [at_, stage, if_neg (Nat.lt_irrefl i), if_pos rfl]
      rcases h.starts here with ⟨-, runs, -⟩ | moves
      · cases waits.symm.trans runs
      · exact .inr ⟨i, .inl rfl, by simp, moves⟩
    · exact .inl (moved moves.taken)
  | reading i =>
    obtain ⟨s', moves⟩ := main_reading h at_
    exact .inl (moved moves.taken)
  | listening =>
    obtain ⟨s', moves⟩ := main_listening h at_
    exact .inl (moved moves.taken)
  | serving => exact absurd at_ serving
  | destroying i =>
    obtain ⟨s', moves, -⟩ := main_destroying h at_
    exact .inl (moved moves.taken)
  | waking i p =>
    rcases main_waking h at_ with ⟨fault, -⟩ | ⟨s', moves⟩
    · exact .inl (moved fault)
    · exact .inl (moved moves.taken)
  | joining i =>
    rcases main_joining h at_ with ⟨-, waits⟩ | ⟨s', moves⟩
    · have here : stage n s.main i = .joining := by
        simp only [at_, stage, if_neg (Nat.lt_irrefl i), if_true]
      rcases h.joins here with ⟨-, ended⟩ | moves
      · exact absurd ended waits
      · exact .inr ⟨i, .inr (.inr rfl), by simp, moves⟩
    · exact .inl (moved moves.taken)
  | done => exact absurd at_ done

/-- The main loop lies at 0 and that of worker `k` at `k + 1`. -/
structure Numbered (s : MultiServer n) : Prop where
  evd : s.dispatchers.evd = 0
  evds : s.dispatchers.evds = (List.range (filled n s.main)).map (· + 1)
  fresh : ∀ i, s.main = .constructing i → s.heap.fresh = i + 1
  begun : ∀ i, s.main = .spinning i → (s.workers i).evd = .unset → s.heap.fresh = i + 1
  made : ∀ i p, s.main = .spinning i ∨ s.main = .reading i → (s.workers i).evd = .at p →
    p = i + 1 ∧ s.heap.fresh = i + 2

/-- `Start` is behind its loop. -/
def Late : MainPc → Prop
  | .constructing _ => False
  | .spinning _ => False
  | .reading _ => False
  | _ => True

theorem Late.filled (late : Late main) : MultiServer.filled n main = n := by
  cases main <;> first | rfl | exact late.elim

theorem Late.mainStep (late : Late s.main) (taken : s.mainStep true = some (.ok s')) : Late s'.main := by
  cases at_ : s.main with
  | constructing i =>
    rw [at_] at late
    exact late.elim
  | spinning i =>
    rw [at_] at late
    exact late.elim
  | reading i =>
    rw [at_] at late
    exact late.elim
  | listening =>
    simp only [MultiServer.mainStep, at_] at taken
    cases taken
    trivial
  | serving =>
    simp only [MultiServer.mainStep, at_] at taken
    cases taken
  | destroying i =>
    simp only [MultiServer.mainStep, at_] at taken
    split_ifs at taken
    · cases led : s.follow (s.workers i).evd <;> rw [led] at taken <;> cases taken
      trivial
    · cases taken
    · cases taken
      trivial
  | waking i p =>
    simp only [MultiServer.mainStep, at_] at taken
    cases led : s.wakeup (.at p) true <;> rw [led] at taken <;> cases taken
    trivial
  | joining i =>
    simp only [MultiServer.mainStep, at_] at taken
    split_ifs at taken
    cases taken
    trivial
  | done =>
    simp only [MultiServer.mainStep, at_] at taken
    cases taken

theorem Numbered.late (h : Numbered s) (old : Late s.main) (late : Late s'.main)
    (evd : s'.dispatchers.evd = s.dispatchers.evd) (evds : s'.dispatchers.evds = s.dispatchers.evds) :
    Numbered s' := by
  refine ⟨evd.trans h.evd, ?_, fun i at_ => ?_, fun i at_ => ?_, fun i p at_ => ?_⟩
  · rw [evds, h.evds, old.filled, late.filled]
  · rw [at_] at late
    exact late.elim
  · rw [at_] at late
    exact late.elim
  · obtain at_ | at_ := at_ <;> rw [at_] at late <;> exact late.elim

theorem Calm.late (calm : Calm s s') (h : Sound s) (h' : Sound s') (old : Late s.main)
    (late : Late s'.main) : s'.dispatchers.evds = s.dispatchers.evds := by
  refine (calm.evds.eq_of_length ?_).symm
  rw [h.length, h'.length, old.filled, late.filled]

theorem Numbered.worker (h : Numbered s) (sound : Sound s) (taken : s.workerStep k true = some (.ok s')) :
    Numbered s' := by
  rcases sound.worker k with none | ⟨at_, t, moves⟩
  · cases none.symm.trans taken
  cases moves.taken.symm.trans taken
  by_cases main : s.main = .spinning k
  · have here : stage n s.main k = .starting := by
      rw [main, stage, if_neg (Nat.lt_irrefl k), if_pos rfl]
    have stands := sound.stages k
    rw [here] at stands
    generalize ew : s.workers k = w at stands
    generalize es : s.stops (some k) = seen at stands
    cases stands with
    | begun =>
      have fresh := h.begun k main (by rw [ew])
      simp only [workerStep, ew] at taken
      cases taken
      refine ⟨h.evd, h.evds, fun i at_ => ?_, fun i at_ unset => ?_, fun i p at_ made => ?_⟩
      · cases main.symm.trans at_
      · cases main.symm.trans at_
        simp [setWorker] at unset
      · have same : i = k := by
          obtain at_ | at_ := at_ <;> cases main.symm.trans at_
          rfl
        subst same
        simp only [setWorker, Function.update_self, EvdPtr.at.injEq] at made
        exact ⟨made.symm.trans fresh, congrArg (· + 1) fresh⟩
    | stored p =>
      simp only [workerStep, ew] at taken
      cases taken
      refine ⟨h.evd, h.evds, fun i at_ => ?_, fun i at_ unset => ?_, fun i q at_ made => ?_⟩
      · cases main.symm.trans at_
      · cases main.symm.trans at_
        simp [setWorker] at unset
      · have same : i = k := by
          obtain at_ | at_ := at_ <;> cases main.symm.trans at_
          rfl
        subst same
        simp only [setWorker, Function.update_self] at made
        exact h.made i q (.inl main) (by rw [ew]; exact made)
    | looping p =>
      have at_p : s.own (some k) = some p := by simp [own, ew, IoWorker.own]
      have found := (stops_at at_p).symm.trans es
      simp [workerStep, ew, follow_at found] at taken
  · have late : Late s.main := by
      obtain at_ | ⟨p, at_⟩ | at_ := at_
      · exact absurd at_ main
      · rw [at_]
        trivial
      · rw [at_]
        trivial
    have late' : Late s'.main := by
      rw [moves.main]
      exact late
    exact h.late late late' moves.calm.evd (moves.calm.late sound moves.sound late late')

theorem Numbered.mainStep (h : Numbered s) (sound : Sound s) (sound' : Sound s') (calm : Calm s s')
    (taken : s.mainStep true = some (.ok s')) : Numbered s' := by
  by_cases late : Late s.main
  · have late' := late.mainStep taken
    exact h.late late late' calm.evd (calm.late sound sound' late late')
  · have evds := h.evds
    cases at_ : s.main with
    | constructing i =>
      rw [at_] at evds
      simp only [MultiServer.mainStep, at_] at taken
      split_ifs at taken with more
      · cases taken
        refine ⟨h.evd, evds, by simp, fun j now _ => ?_, fun j p now made => ?_⟩
        · cases now
          exact h.fresh i at_
        · obtain now | now := now <;> cases now
          simp [setWorker] at made
      · cases taken
        have within := sound.within
        rw [at_] at within
        obtain rfl : i = n := Nat.le_antisymm within (Nat.not_lt.mp more)
        exact ⟨h.evd, evds, by simp, by simp, fun j p now => by obtain now | now := now <;> cases now⟩
    | spinning i =>
      rw [at_] at evds
      simp only [MultiServer.mainStep, at_] at taken
      split_ifs at taken
      cases taken
      refine ⟨h.evd, evds, by simp, by simp, fun j p now made => ?_⟩
      obtain now | now := now <;> cases now
      exact h.made i p (.inl at_) made
    | reading i =>
      rw [at_] at evds
      have here : stage n s.main i = .ready := by
        rw [at_]
        exact if_pos (Nat.le_refl i)
      obtain ⟨p, ew, -⟩ := sound.ready here
      obtain ⟨rfl, fresh⟩ := h.made i p (.inr at_) (by rw [ew])
      simp only [MultiServer.mainStep, at_, ew, EvdPtr.addr, ok_bind, pure_ok] at taken
      cases taken
      refine ⟨h.evd, ?_, fun j now => ?_, by simp, fun j p now => ?_⟩
      · simp only [evds, MultiServer.filled, List.range_succ, List.map_append, List.map_singleton]
      · cases now
        exact fresh
      · obtain now | now := now <;> cases now
    | listening => exact absurd (by rw [at_]; trivial) late
    | serving => exact absurd (by rw [at_]; trivial) late
    | destroying i => exact absurd (by rw [at_]; trivial) late
    | waking i p => exact absurd (by rw [at_]; trivial) late
    | joining i => exact absurd (by rw [at_]; trivial) late
    | done => exact absurd (by rw [at_]; trivial) late

theorem Numbered.step (h : Numbered s) (sound : Sound s) (b : Balanced s) (taken : Steps s a s') :
    Numbered s' := by
  have sound' := (kept ⟨sound, b⟩ taken).1.1
  cases a with
  | main wrote =>
    have taken := mainStep_taken taken
    rcases sound.mainStep with none | ⟨t, moves⟩ | ⟨fault, -⟩
    · cases none.symm.trans taken
    · cases moves.taken.symm.trans taken
      exact h.mainStep sound sound' moves.calm taken
    · cases fault.symm.trans taken
  | worker k wrote => exact h.worker sound (workerStep_taken taken)
  | newConnect calling wrote =>
    by_cases at_ : s.main = .serving
    · obtain ⟨main, evd, evds⟩ := connect_keeps sound b at_ taken
      have late : Late s.main := by
        rw [at_]
        trivial
      exact h.late late (by rw [main]; exact late) evd evds
    · cases (if_neg at_).symm.trans taken
  | destroy =>
    by_cases at_ : s.main = .serving
    · cases (if_pos at_).symm.trans taken
      exact h.late (by rw [at_]; trivial) trivial rfl rfl
    · cases (if_neg at_).symm.trans taken

theorem new_numbered (n : Nat) : Numbered (new n) := by
  refine ⟨rfl, rfl, fun i at_ => ?_, by simp [new], fun i p at_ => ?_⟩
  · cases at_
    rfl
  · obtain at_ | at_ := at_ <;> cases at_

theorem reached_numbered {Allowed : MultiServer n → ServerAct → Prop}
    (run : Reaches Steps Allowed (new n) s) : Numbered s := by
  have keep (x : MultiServer n) (a : ServerAct) (y : MultiServer n)
      (good : (Sound x ∧ Balanced x) ∧ Numbered x) (_ : Allowed x a) (taken : Steps x a y) :
      (Sound y ∧ Balanced y) ∧ Numbered y :=
    ⟨(kept good.1 taken).1, good.2.step good.1.1 good.1.2 taken⟩
  exact (run.invariant ⟨⟨new_sound n, new_balanced n⟩, new_numbered n⟩ keep).2

theorem Numbered.serving (h : Numbered s) (sound : Sound s) (b : Balanced s) (at_ : s.main = .serving) :
    s.dispatchers = { Dispatchers.start n with
        nextEvdId := if n = 0 then 0 else s.connections.length % n } ∧
      ∀ k < n, s.workers k = ⟨.at (k + 1), true, .looping⟩ ∧ s.heap.cells (k + 1) = some false := by
  have evds := h.evds
  rw [at_] at evds
  refine ⟨?_, fun k inside => ?_⟩
  · have parts : s.dispatchers = ⟨s.dispatchers.evd, s.dispatchers.evds, s.dispatchers.nextEvdId⟩ := rfl
    rw [parts, h.evd, evds, b.index]
    rfl
  · have ready : stage n s.main k = .ready := by
      rw [at_]
      exact if_pos inside
    obtain ⟨p, ew, -, found⟩ := sound.ready ready
    have named := sound.named k (k + 1) (by rw [evds]; simp [filled, inside]) ready
    rw [ew] at named
    cases named
    exact ⟨ew, found⟩

theorem Numbered.connection (h : Numbered s) (b : Balanced s) {j evd : Nat}
    (found : s.connections[j]? = some evd) : evd = if n = 0 then 0 else j % n + 1 := by
  have loop := b.each j evd found
  rw [loopOf, h.evd, h.evds] at loop
  split_ifs at loop ⊢
  · exact (Option.some.inj loop).symm
  · rw [List.getElem?_map, Option.map_eq_some_iff] at loop
    obtain ⟨k, at_k, rfl⟩ := loop
    have inside := (List.getElem?_eq_some_iff.mp at_k).1
    rw [List.length_range] at inside
    rw [List.getElem?_range inside] at at_k
    exact congrArg (· + 1) (Option.some.inj at_k).symm

/-- However the threads take turns, the server comes to serve, each worker runs the loop that
`Dispatchers.start` gives it, a new connection goes well unless `Wakeup` cannot write, the connections go
round the loops, and there are only so many steps. -/
theorem connections_in_turn {labels : List ServerAct} (run : Runs Steps Free (new n) labels s) :
    labels.countP (!·.isNewConnect) ≤ 11 * n + 4 ∧
      (s.main ≠ .serving → s.main ≠ .done → ∃ a, a.isNewConnect = false ∧ s.step a ≠ none) ∧
      (s.main = .serving → (∀ calling wrote, (∃ s', s.newConnect calling wrote = .ok s') ↔
          n = 0 ∨ calling = false ∨ wrote = true) ∧
        s.dispatchers = { Dispatchers.start n with
          nextEvdId := if n = 0 then 0 else s.connections.length % n } ∧
        ∀ k < n, s.workers k = ⟨.at (k + 1), true, .looping⟩ ∧ s.heap.cells (k + 1) = some false) ∧
      ∀ j evd, s.connections[j]? = some evd → evd = if n = 0 then 0 else j % n + 1 := by
  obtain ⟨sound, balanced⟩ := reached run.reaches
  have numbered := reached_numbered run.reaches
  refine ⟨?_, fun serving done => ?_, fun at_ => ?_, fun j evd => numbered.connection balanced⟩
  · have bound := run.countP_le (fun x => Sound x ∧ Balanced x) (!·.isNewConnect) rank
      ⟨new_sound n, new_balanced n⟩ (fun _ _ _ good _ taken => (kept good taken).1)
      fun x a y good _ taken => by
        have less := (kept good taken).2
        cases connects : a.isNewConnect <;> simp only [connects] at less ⊢ <;> simp at less ⊢ <;> omega
    have whole : (new n).rank = 11 * n + 4 := by
      simp only [rank, new]
      omega
    omega
  · rcases goes_on sound serving done with main | ⟨k, -, -, s', moves⟩
    · exact ⟨.main true, rfl, main⟩
    · refine ⟨.worker k true, rfl, ?_⟩
      rw [step, moves.taken]
      exact Option.some_ne_none _
  · exact ⟨fun calling wrote => connects_iff sound balanced at_, numbered.serving sound balanced at_⟩

/-- A step that goes well. -/
def next (s : MultiServer n) (a : ServerAct) : Option (MultiServer n) :=
  match s.step a with
  | some (.ok t) => some t
  | _ => none

theorem next_steps {s t : MultiServer n} (taken : s.next a = some t) : Free s a ∧ Steps s a t := by
  refine ⟨trivial, ?_⟩
  rw [next] at taken
  split at taken
  · cases taken
    assumption
  · cases taken

/-- Two workers and three connections. -/
theorem connections_in_turn_two : ∃ (s : MultiServer 2) (labels : List ServerAct),
    Runs Steps Free (new 2) labels s ∧ s.main = .serving ∧ s.connections = [1, 2, 1] ∧
      ∀ j evd, s.connections[j]? = some evd → evd = if 2 = 0 then 0 else j % 2 + 1 := by
  obtain ⟨s, run, at_, connections⟩ : ∃ s, [ServerAct.main true, .worker 0 true, .worker 0 true,
      .main true, .main true, .main true, .worker 1 true, .worker 1 true, .main true, .main true,
      .main true, .main true, .newConnect true true, .newConnect false false,
      .newConnect false true].foldlM next (new 2) = some s ∧ s.main = .serving ∧ s.connections = [1, 2, 1] :=
    ⟨_, rfl, rfl, rfl⟩
  have runs := Runs.of_function next (fun _ _ _ => next_steps) _ run
  exact ⟨s, _, runs, at_, connections, (connections_in_turn runs).2.2.2⟩

/-! The destructor of a worker. -/

/-- The worker deletes its loop only when the server has woken it up. -/
def Patient (s : MultiServer n) (a : ServerAct) : Prop :=
  ∀ k p wrote, s.main = .waking k p → a = .worker k wrote → (s.workers k).pc ≠ .left

/-- The worker has not deleted the loop that the server is about to wake up. -/
def Awake (s : MultiServer n) : Prop := ∀ i p, s.main = .waking i p → 2 ≤ (s.workers i).pc.rank

theorem Patient.awake (h : Sound s) (b : Balanced s) (awake : Awake s) (patient : Patient s a)
    (taken : Steps s a s') : Awake s' := by
  intro i p at_
  cases a with
  | main wrote =>
    have taken := mainStep_taken taken
    rcases h.mainStep with none | ⟨t, moves⟩ | ⟨fault, -⟩
    · cases none.symm.trans taken
    · cases moves.taken.symm.trans taken
      rw [moves.woken i p at_]
      exact Nat.le_succ 2
    · cases fault.symm.trans taken
  | worker k wrote =>
    have taken := workerStep_taken taken
    rcases h.worker k with none | ⟨here, t, moves⟩
    · cases none.symm.trans taken
    · cases moves.taken.symm.trans taken
      have before : s.main = .waking i p := moves.main ▸ at_
      obtain rfl : k = i := by
        rw [before] at here
        obtain here | ⟨q, here⟩ | here := here <;> cases here
        rfl
      have early := awake k p before
      have stays := patient k p wrote before rfl
      have less := moves.rank
      generalize (s'.workers k).pc.rank = later at less ⊢
      cases pc : (s.workers k).pc <;> rw [pc] at early less stays <;>
        simp only [IoPc.rank] at early less <;> first | exact absurd rfl stays | omega
  | newConnect calling wrote =>
    by_cases serving : s.main = .serving
    · obtain ⟨main, -⟩ := connect_keeps h b serving taken
      rw [main, serving] at at_
      cases at_
    · cases (if_neg serving).symm.trans taken
  | destroy =>
    by_cases serving : s.main = .serving
    · cases (if_pos serving).symm.trans taken
      cases at_
    · cases (if_neg serving).symm.trans taken

theorem Sound.ending (h : Sound s) {p : Nat} (at_ : s.main = .waking i p) :
    stage n s.main i = .waking p ∧ Ending s.heap p (s.workers i) (s.stops (some i)) := by
  have here : stage n s.main i = .waking p := by
    simp only [at_, stage, if_neg (Nat.lt_irrefl i), if_true]
  have stands := h.stages i
  rw [here] at stands
  exact ⟨here, stands⟩

theorem Awake.cell (h : Sound s) (awake : Awake s) {p : Nat} (at_ : s.main = .waking i p) :
    s.heap.cells p ≠ none := by
  have early := awake i p at_
  have stands := (h.ending at_).2
  generalize ew : s.workers i = w at early stands
  generalize s.stops (some i) = seen at stands
  cases stands with
  | looping => exact h.owned.cell (some i) p (by simp [own, ew, IoWorker.own])
  | left => exact h.owned.cell (some i) p (by simp [own, ew, IoWorker.own])
  | deleted dead => exact absurd early (by simp [IoPc.rank])
  | returned dead => exact absurd early (by simp [IoPc.rank])

theorem reached_awake (run : Reaches Steps Patient (new n) s) : Awake s := by
  have keep (x : MultiServer n) (a : ServerAct) (y : MultiServer n)
      (good : (Sound x ∧ Balanced x) ∧ Awake x) (patient : Patient x a) (taken : Steps x a y) :
      (Sound y ∧ Balanced y) ∧ Awake y :=
    ⟨(kept good.1 taken).1, patient.awake good.1.1 good.1.2 good.2 taken⟩
  exact (run.invariant ⟨⟨new_sound n, new_balanced n⟩, fun i p at_ => by cases at_⟩ keep).2

/-- The worker can run on to `delete _evd` behind `_stop = true`. -/
theorem deletes_first {p r : Nat} (h : Sound s) (at_ : s.main = .waking i p)
    (left : (s.workers i).pc.rank = r + 1) :
    ∃ t, Reaches Steps Free s t ∧ Sound t ∧ t.main = .waking i p ∧ (t.workers i).pc = .deleted := by
  induction r generalizing s with
  | zero =>
    refine ⟨s, .start, h, at_, ?_⟩
    cases pc : (s.workers i).pc <;> rw [pc] at left <;> first | rfl | cases left
  | succ r ih =>
    rcases h.wakes (h.ending at_).1 with ⟨-, ended⟩ | ⟨u, moves⟩
    · rw [ended] at left
      cases left
    · have less := moves.rank
      obtain ⟨t, run, rest⟩ := ih moves.sound (moves.main.trans at_) (by omega)
      have taken : Steps s (.worker i true) u := moves.taken
      exact ⟨t, Reaches.trans (.step .start trivial taken) run, rest⟩

theorem can_fault (h : Sound s) (at_ : s.main = .destroying i) (more : i < n) :
    ∃ t, Reaches Steps Free s t ∧ t.step (.main true) = some (.error .useAfterFree) := by
  obtain ⟨u, moves, wakes⟩ := main_destroying h at_
  obtain ⟨p, waking⟩ := wakes more
  have first : Steps s (.main true) u := moves.taken
  have looping := congrArg IoPc.rank (moves.woken i p waking)
  obtain ⟨t, run, sound, still, deleted⟩ := deletes_first moves.sound waking looping
  refine ⟨t, Reaches.trans (.step .start trivial first) run, ?_⟩
  have stands := (sound.ending still).2
  generalize t.workers i = w at deleted stands
  generalize t.stops (some i) = seen at stands
  cases stands with
  | looping => cases deleted
  | left => cases deleted
  | deleted dead =>
    simp only [step, MultiServer.mainStep, still, wakeup, follow_dead dead]
    rfl
  | returned dead => cases deleted

theorem Sound.ended (h : Sound s) (at_ : s.main = .done) :
    (∀ k < n, s.workers k = ⟨.null, true, .returned⟩) ∧
      ∀ p, s.heap.cells p ≠ none ↔ p = s.dispatchers.evd := by
  have gone (k : Nat) : k < n → s.workers k = ⟨.null, true, .returned⟩ := by
    intro inside
    have stands := h.stages k
    rw [at_, stage, if_pos inside] at stands
    exact stands
  refine ⟨gone, fun p => ⟨fun used => ?_, fun same => ?_⟩⟩
  · obtain ⟨k, at_p⟩ := h.owned.owner p used
    cases k with
    | none => exact (Option.some.inj at_p).symm
    | some k =>
      by_cases inside : k < n
      · simp [own, gone k inside, IoWorker.own] at at_p
      · have stands := h.stages k
        rw [at_, stage, if_neg inside] at stands
        have idle : s.workers k = {} := stands
        simp [own, idle, IoWorker.own] at at_p
  · exact h.owned.cell none p (congrArg some same.symm)

/-- Beside the `write`s that fail, the destructor goes wrong exactly where the worker has deleted its loop
between `_stop = true` and `Wakeup`. Each worker can; where none does and every `write` succeeds, the
server comes to an end with every loop deleted. -/
theorem stop_races (run : Reaches Steps Free (new n) s) :
    (∀ a f, s.step a = some (.error f) ↔ (f = .useAfterFree ∧ (∃ wrote, a = .main wrote) ∧
        ∃ i p, s.main = .waking i p ∧ s.heap.cells p = none) ∨ f = .abort ∧ Aborts s a) ∧
      (∀ i < n, s.main = .destroying i →
        ∃ t, Reaches Steps Free s t ∧ t.step (.main true) = some (.error .useAfterFree)) ∧
      (Reaches Steps Patient (new n) s → (∀ a f, ¬ Aborts s a → s.step a ≠ some (.error f)) ∧
        (s.main ≠ .serving → s.main ≠ .done →
          ∃ a t, a.isNewConnect = false ∧ Patient s a ∧ Steps s a t ∧ t.rank < s.rank)) ∧
      (s.main = .done → (∀ k < n, s.workers k = ⟨.null, true, .returned⟩) ∧
        ∀ p, s.heap.cells p ≠ none ↔ p = s.dispatchers.evd) := by
  obtain ⟨sound, balanced⟩ := reached run
  refine ⟨fun a f => faults_iff sound balanced, fun i more at_ => can_fault sound at_ more,
    fun patient => ?_, sound.ended⟩
  have awake := reached_awake patient
  have safe (a : ServerAct) (f : Fault) (written : ¬ Aborts s a) : s.step a ≠ some (.error f) := by
    intro fault
    rcases (faults_iff sound balanced).mp fault with ⟨-, -, i, p, at_, dead⟩ | ⟨-, aborts⟩
    · exact awake.cell sound at_ dead
    · exact written aborts
  refine ⟨safe, fun serving done => ?_⟩
  rcases goes_on sound serving done with more | ⟨k, at_, other, t, moves⟩
  · rcases sound.mainStep with none | ⟨t, moves⟩ | ⟨fault, -⟩
    · exact absurd none more
    · exact ⟨.main true, t, rfl, by simp [Patient], moves.taken,
        Nat.lt_of_lt_of_eq (Nat.lt_succ_self _) moves.rank⟩
    · exact absurd fault (safe (.main true) _ (by simp [Aborts]))
  · refine ⟨.worker k true, t, rfl, fun j p wrote waking same => ?_, moves.taken,
      Nat.lt_of_lt_of_eq (Nat.lt_succ_self _) (moves.ranked at_)⟩
    cases same
    exact absurd waking (other p)

/-- The server of one worker, when its destructor begins; and a new connection before it, whose `Wakeup`
cannot write. -/
theorem stop_races_one : ∃ r s : MultiServer 1, Reaches Steps Free (new 1) r ∧
    r.step (.newConnect true false) = some (.error .abort) ∧ Steps r .destroy s ∧
    s.main = .destroying 0 ∧
    ∃ t, Reaches Steps Free s t ∧ t.step (.main true) = some (.error .useAfterFree) := by
  obtain ⟨r, s, run, serving, ends, at_⟩ : ∃ r s, [ServerAct.main true, .worker 0 true, .worker 0 true,
      .main true, .main true, .main true, .main true].foldlM next (new 1) = some r ∧
      r.main = .serving ∧ Steps r .destroy s ∧ s.main = .destroying 0 := ⟨_, _, rfl, rfl, rfl, rfl⟩
  have reaches := (Runs.of_function next (fun _ _ _ => next_steps) _ run).reaches
  have fails := ((stop_races reaches).1 (.newConnect true false) .abort).mpr
    (.inr ⟨rfl, rfl, serving, Nat.one_ne_zero, rfl⟩)
  exact ⟨r, s, reaches, fails, ends, at_,
    (stop_races (reaches.step trivial ends)).2.1 0 Nat.one_pos at_⟩

end Yamq.MultiServer
