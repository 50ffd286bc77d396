import Mathlib.Data.Int.Order.Basic
import Yamq.Lib.SortedMap
import Yamq.Timer.TimerRefs
import Mathlib.Algebra.Group.Nat.Defs
import Mathlib.Algebra.Group.Int.Defs

/-! The timerfd against the stored timers. The tree is a map ordered by its keys here, and
`rbtree_insert` of a key in the map leaves it as it is. -/
namespace Yamq

abbrev OrderedTimers := List (Int × Nat)

inductive Handle where
  | nil
  | unlinked     -- the node for a key that is in the map already
  | key (k : Int)
deriving DecidableEq, Repr

instance : TimerTree OrderedTimers Handle where
  insertTimer t key data :=
    if (t.lookup key).isSome then .ok (t, .unlinked)
    else .ok (SortedMap.insert key data t, .key key)
  minNode
    | [] => .ok .nil
    | (k, _) :: _ => .ok (.key k)
  isNil _ n := n = .nil
  entryOf t
    | .key k =>
      match t.lookup k with
      | some p => .ok ⟨k, p⟩
      | none => .error .useAfterFree
    | _ => .error .wildPointer
  deleteNode t
    | .key k => .ok (SortedMap.erase k t)
    | _ => .error .wildPointer
  turns t := t.length + 1

/-- Strictly between 0 and 2^63. -/
def InRange (expire : UInt64) : Prop := 0 < expire.toNat ∧ expire.toNat < 2 ^ 63

/-- Inside the `PerTick` of `HandleRead`. -/
def TickPc.handling : TickPc → Bool
  | .idle => false
  | .visiting _ handling => handling
  | .calling _ _ handling => handling

namespace TimerQueue

open TimerTree

variable {q q' : TimerQueue OrderedTimers Handle} {p : Nat} {k : Int}

/-- The timer is stored in the tree. -/
def Pending (q : TimerQueue OrderedTimers Handle) (p : Nat) : Prop := ∃ k, (k, p) ∈ q.tree

/-- Each stored timer is live, knows its node and has its expiry as the key. -/
structure Linked (q : TimerQueue OrderedTimers Handle) : Prop where
  sorted : SortedMap.Sorted q.tree
  linked : ∀ k p, (k, p) ∈ q.tree → ∃ timer, q.timers p = some timer ∧
    timer.attach = some (.key k) ∧ k = timer.expire.toNat ∧ InRange timer.expire

/-- With something in the tree, the timerfd is readable or armed for no instant after the least key. -/
def Covered (q : TimerQueue OrderedTimers Handle) : Prop :=
  q.tree ≠ [] → q.timerfd = .readable ∨ ∃ deadline, q.timerfd = .armed deadline ∧
    ∀ x ∈ q.tree, (deadline.toNat : Int) ≤ q.ownEpoch.toNat + x.1

theorem Linked.same_key (h : Linked q) {j : Int} (first : (k, p) ∈ q.tree) (second : (j, p) ∈ q.tree) :
    k = j := by
  obtain ⟨timer, here, _, key, _⟩ := h.linked k p first
  obtain ⟨timer', here', _, key', _⟩ := h.linked j p second
  rw [here, Option.some.injEq] at here'
  rw [key, key', here']

theorem Linked.remove (h : Linked q) (member : (k, p) ∈ q.tree) (t : Option (Timer Handle)) :
    Linked ({ q with tree := SortedMap.erase k q.tree }.put p t) ∧
      ¬ Pending ({ q with tree := SortedMap.erase k q.tree }.put p t) p := by
  have gone (j : Int) : (j, p) ∉ SortedMap.erase k q.tree := by
    intro left
    obtain ⟨there, other⟩ := SortedMap.mem_erase.mp left
    exact other (h.same_key there member)
  refine ⟨⟨h.sorted.erase k, fun j x left => ?_⟩, fun ⟨j, left⟩ => gone j left⟩
  have other : x ≠ p := fun same => gone j (same ▸ left)
  rw [put_timers, Function.update_of_ne other]
  exact h.linked j x (SortedMap.mem_erase.mp left).1

theorem Linked.write (h : Linked q) (outside : ¬ Pending q p) (t : Option (Timer Handle)) :
    Linked (q.put p t) := by
  refine ⟨h.sorted, fun k x member => ?_⟩
  have other : x ≠ p := fun same => outside ⟨k, same ▸ member⟩
  rw [put_timers, Function.update_of_ne other]
  exact h.linked k x member

theorem Covered.shrink (h : Covered q) (timerfd : q'.timerfd = q.timerfd)
    (epoch : q'.ownEpoch = q.ownEpoch) (less : ∀ x ∈ q'.tree, x ∈ q.tree) : Covered q' := by
  intro some_
  obtain ⟨y, member⟩ := List.exists_mem_of_ne_nil _ some_
  rw [timerfd, epoch]
  refine (h (List.ne_nil_of_mem (less y member))).imp_right ?_
  rintro ⟨deadline, armed, early⟩
  exact ⟨deadline, armed, fun x left => early x (less x left)⟩

theorem Covered.tick (h : Covered q) (now : UInt64) :
    Covered { q with clock := now, timerfd := q.timerfd.tick now } := by
  intro some_
  rcases h some_ with readable | ⟨deadline, armed, early⟩
  · refine .inl ?_
    change q.timerfd.tick now = .readable
    simp [readable, Timerfd.tick]
  · change q.timerfd.tick now = .readable ∨ ∃ deadline, q.timerfd.tick now = .armed deadline ∧ _
    rw [armed, Timerfd.tick]
    split
    · exact .inl rfl
    · exact .inr ⟨deadline, rfl, early⟩

/-- Arming for an expiry that is no later than any in the tree. The sum may only wrap to an earlier
instant. -/
theorem covered_arm {expire now : UInt64} (armed : q.timerfd = .arm (q.ownEpoch + expire) now)
    (least : ∀ x ∈ q.tree, (expire.toNat : Int) ≤ x.1) : Covered q := by
  intro _
  rw [armed, Timerfd.arm]
  split
  · exact .inl rfl
  · refine .inr ⟨_, rfl, fun x member => ?_⟩
    have wraps : (q.ownEpoch + expire).toNat ≤ q.ownEpoch.toNat + expire.toNat := by
      rw [UInt64.toNat_add]
      exact Nat.mod_le ..
    have later := least x member
    omega

theorem insert_cases {tree : OrderedTimers} {n : Handle}
    (run : insertTimer q.tree k p = .ok (tree, n)) :
    tree = q.tree ∨ tree = SortedMap.insert k p q.tree ∧ n = .key k := by
  change (if (q.tree.lookup k).isSome then _ else _) = _ at run
  split at run
  · cases run
    exact .inl rfl
  · cases run
    exact .inr ⟨rfl, rfl⟩

theorem min_entry {tree : OrderedTimers} {least : Handle} {e : Entry Nat}
    (sorted : SortedMap.Sorted tree) (min : minNode tree = .ok least)
    (entry : entryOf tree least = .ok e) :
    least = .key e.key ∧ (e.key, e.val) ∈ tree ∧ ∀ x ∈ tree, e.key ≤ x.1 := by
  cases tree with
  | nil =>
    cases min
    cases entry
  | cons y rest =>
    obtain ⟨k, p⟩ := y
    cases min
    have known : ((k, p) :: rest).lookup k = some p := List.lookup_cons_self
    simp only [entryOf, known] at entry
    cases entry
    refine ⟨rfl, List.mem_cons_self, ?_⟩
    rintro x (_ | ⟨_, member⟩)
    · exact le_rfl
    · exact (List.rel_of_pairwise_cons sorted member).le

/-- The tree after `addTimer` of a timer that is not stored. -/
theorem Linked.insert (h : Linked q) {timer : Timer Handle} {tree : OrderedTimers} {n : Handle}
    (outside : ¬ Pending q p) (range : InRange (q.expireOf timer))
    (inserted : insertTimer q.tree (toLongLong (q.expireOf timer)) p = .ok (tree, n)) (fd : Timerfd) :
    Linked (q.placed p timer tree n fd) ∧
      ∀ x ∈ tree, x ∈ q.tree ∨ x = (((q.expireOf timer).toNat : Int), p) := by
  rw [toLongLong_small range.2] at inserted
  rcases insert_cases inserted with rfl | ⟨rfl, rfl⟩
  · have kept := h.write outside (some { timer with expire := q.expireOf timer, attach := some n })
    exact ⟨⟨kept.sorted, kept.linked⟩, fun _ => .inl⟩
  · refine ⟨⟨h.sorted.insert .., fun k x member => ?_⟩, fun x member => ?_⟩
    · rw [placed_timers]
      rcases (SortedMap.mem_insert h.sorted).mp member with new | ⟨old, _⟩
      · cases new
        exact ⟨_, Function.update_self .., rfl, rfl, range⟩
      · have other : x ≠ p := fun same => outside ⟨k, same ▸ old⟩
        rw [Function.update_of_ne other]
        exact h.linked k x old
    · rcases (SortedMap.mem_insert h.sorted).mp member with new | ⟨old, _⟩
      · exact .inr new
      · exact .inl old

theorem Linked.others (h : Linked q) {timer : Timer Handle} {tree : OrderedTimers} {n : Handle}
    {fd : Timerfd} (outside : ¬ Pending q p) (range : InRange (q.expireOf timer))
    (inserted : insertTimer q.tree (toLongLong (q.expireOf timer)) p = .ok (tree, n)) {x : Nat}
    (other : x ≠ p) (before : ¬ Pending q x) : ¬ Pending (q.placed p timer tree n fd) x := by
  rintro ⟨k, member⟩
  rcases (h.insert outside range inserted fd).2 _ member with old | new
  · exact before ⟨k, old⟩
  · exact other (Prod.mk.inj new).2

/-- `addTimer` re-arms for a new least key and leaves the timerfd alone for any other. -/
theorem Covered.insert (h : Linked q) (covered : Covered q) {timer : Timer Handle}
    {tree : OrderedTimers} {n : Handle} {fd : Timerfd} (outside : ¬ Pending q p)
    (range : InRange (q.expireOf timer)) (inserted : Inserted q p (q.expireOf timer) tree n fd) :
    Covered (q.placed p timer tree n fd) := by
  obtain ⟨linked, members⟩ := h.insert outside range inserted.inserted fd
  obtain ⟨least, e, min, entry, same⟩ := inserted.rearmed
  obtain ⟨_, here, bound⟩ := min_entry linked.sorted min entry
  rw [toLongLong_small range.2] at same
  by_cases first : ((q.expireOf timer).toNat : Int) ≤ e.key
  · rw [if_pos first] at same
    exact covered_arm same fun x member => first.trans (bound x member)
  · rw [if_neg first] at same
    have old : (e.key, e.val) ∈ q.tree := by
      refine (members _ here).resolve_right fun new => first ?_
      rw [(Prod.mk.inj new).1]
    intro _
    change fd = .readable ∨ ∃ deadline, fd = .armed deadline ∧ ∀ x ∈ tree, _
    rw [same]
    refine (covered (List.ne_nil_of_mem old)).imp_right ?_
    rintro ⟨deadline, armed, early⟩
    refine ⟨deadline, armed, fun x member => ?_⟩
    rcases members x member with before | rfl
    · exact early x before
    · have soon := early _ old
      dsimp only at soon ⊢
      change (deadline.toNat : Int) ≤ q.ownEpoch.toNat + _
      omega

theorem Linked.created (h : Linked q) (refs : Refs q) (timer : Timer Handle) :
    Linked (q.created timer) ∧ ¬ Pending q q.allocated := by
  have outside : ¬ Pending q q.allocated := by
    rintro ⟨k, member⟩
    obtain ⟨timer, here, _⟩ := h.linked k _ member
    exact Nat.lt_irrefl _ (refs.known _ timer here).1
  have kept := h.write outside (some timer)
  exact ⟨⟨kept.sorted, kept.linked⟩, outside⟩

/-- The first loop of `PerTick` takes stored timers, each once. -/
theorem collect_linked {now : UInt64} {fuel : Nat} {expired batch : List Nat} (h : Linked q)
    (run : collect now fuel q expired = .ok (q', batch)) : Linked q' ∧ (∀ x ∈ q'.tree, x ∈ q.tree) ∧
      ∃ taken, batch = expired ++ taken ∧ taken.Nodup ∧
        ∀ x ∈ taken, Pending q x ∧ ¬ Pending q' x := by
  induction fuel generalizing q expired with
  | zero => cases run
  | succ fuel ih =>
    unfold collect at run
    obtain ⟨n, min, run⟩ := bind_eq_ok.mp run
    have stops (ends : (.ok (q, expired) : Except Halt (TimerQueue OrderedTimers Handle × List Nat)) =
        .ok (q', batch)) : Linked q' ∧ (∀ x ∈ q'.tree, x ∈ q.tree) ∧
          ∃ taken, batch = expired ++ taken ∧ taken.Nodup ∧
            ∀ x ∈ taken, Pending q x ∧ ¬ Pending q' x := by
      cases ends
      exact ⟨h, fun _ => id, [], (List.append_nil _).symm, List.nodup_nil, List.forall_mem_nil _⟩
    split at run
    · exact stops run
    · obtain ⟨e, entry, run⟩ := bind_eq_ok.mp run
      obtain ⟨timer, _, run⟩ := bind_eq_ok.mp run
      obtain ⟨rfl, here, _⟩ := min_entry h.sorted (lift_eq_ok.mp min) (lift_eq_ok.mp entry)
      split at run
      · obtain ⟨tree, deleted, run⟩ := bind_eq_ok.mp run
        cases deleted
        obtain ⟨linked, gone⟩ := h.remove here (some { timer with attach := none })
        obtain ⟨last, fewer, taken, rfl, distinct, moved⟩ := ih linked run
        have less (x : Int × Nat) (left : x ∈ q'.tree) : x ∈ q.tree :=
          (SortedMap.mem_erase.mp (fewer x left)).1
        refine ⟨last, less, e.val :: taken, by simp, List.nodup_cons.mpr ⟨?_, distinct⟩, ?_⟩
        · exact fun again => gone (moved _ again).1
        · rintro x (_ | ⟨_, member⟩)
          · refine ⟨⟨_, here⟩, ?_⟩
            rintro ⟨j, left⟩
            exact gone ⟨j, fewer _ left⟩
          · obtain ⟨⟨j, before⟩, after⟩ := moved x member
            exact ⟨⟨j, (SortedMap.mem_erase.mp before).1⟩, after⟩
      · exact stops run

/-- The end of `HandleRead` covers what is left. -/
theorem rearm_covered (h : Linked q) (run : q.rearm = .ok q') : Covered q' := by
  obtain ⟨expire, wait, run⟩ := bind_eq_ok.mp run
  obtain ⟨n, min, wait⟩ := bind_eq_ok.mp wait
  split at wait
  · rename_i none
    have empty : q.tree = [] := by
      cases stored : q.tree with
      | nil => rfl
      | cons y rest =>
        rw [stored] at min none
        cases min
        cases none
    intro some_
    split at run
    · cases run
      exact absurd empty some_
    · cases run
      exact absurd empty some_
  · obtain ⟨e, entry, wait⟩ := bind_eq_ok.mp wait
    obtain ⟨timer, read, done⟩ := bind_eq_ok.mp wait
    cases done
    obtain ⟨rfl, here, bound⟩ := min_entry h.sorted (lift_eq_ok.mp min) (lift_eq_ok.mp entry)
    obtain ⟨timer', found, _, key, range⟩ := h.linked _ _ here
    rw [get_eq_ok.mp read, Option.some.injEq] at found
    subst found
    have value : timer.expire.toInt64.toInt = timer.expire.toNat := toLongLong_small range.2
    have positive : 0 < timer.expire.toInt64 := by
      rw [Int64.lt_iff_toInt_lt, value]
      exact Int.natCast_pos.mpr range.1
    rw [if_pos positive, UInt64.toUInt64_toInt64] at run
    cases run
    exact covered_arm rfl fun x member => key ▸ bound x member

end TimerQueue

namespace TimerLoop

open Transition TimerQueue

variable {l l' : TimerLoop OrderedTimers Handle} {op : TimerOp}

/-- Every expiry is in range, and only pending timers are cancelled. -/
def Regular (l : TimerLoop OrderedTimers Handle) : TimerOp → Prop
  | .addTimer time _ _ => InRange (l.queue.clock - l.queue.ownEpoch + time)
  | .cancelTimer id => ∃ p, l.queue.ref.lookup id = some (some p) ∧ Pending l.queue p
  | .return_ => ∀ p rest handling timer, l.pc = .calling p rest handling →
      l.queue.timers p = some timer → 0 < timer.elapse → InRange (l.queue.expireOf timer)
  | _ => True

structure Kept (l : TimerLoop OrderedTimers Handle) : Prop where
  refs : Refs l.queue
  linked : Linked l.queue
  distinct : l.pc.batch.Nodup
  apart : ∀ p ∈ l.pc.batch, ¬ Pending l.queue p
  young : ∀ p ∈ l.pc.batch, p < l.queue.allocated
  covered : l.pc.handling = false → Covered l.queue

/-- A timer that was pending is an object after the tick has begun, too. -/
theorem Kept.allocated (h : Kept l) {q : TimerQueue OrderedTimers Handle}
    (same : SameTimers l.queue q) {p : Nat} (pending : Pending l.queue p) : p < q.allocated := by
  obtain ⟨k, member⟩ := pending
  obtain ⟨timer, here, _⟩ := h.linked.linked k p member
  rw [same.allocated]
  exact (h.refs.known p timer here).1

theorem start_kept (clock : UInt64) : Kept (start ([] : OrderedTimers) clock) :=
  ⟨start_refs .., ⟨.nil, nofun⟩, List.nodup_nil, nofun, nofun, fun _ => absurd rfl⟩

theorem Kept.step (h : Kept l) (regular : Regular l op) (steps : Steps l op l') : Kept l' := by
  have refs := refs_step h.refs steps
  cases step_effect steps with
  | clock now =>
    exact ⟨refs, ⟨h.linked.sorted, h.linked.linked⟩, h.distinct, h.apart, h.young,
      fun outside => (h.covered outside).tick now⟩
  | @added time interval cb id tree n fd calls free inserted =>
    obtain ⟨created, outside⟩ := h.linked.created h.refs (newTimer id time interval cb)
    have range : InRange (expireOf (l.queue.created (newTimer id time interval cb))
      (newTimer (N := Handle) id time interval cb)) := regular
    refine ⟨refs, (created.insert outside range inserted.inserted fd).1, h.distinct, fun p member => ?_,
      fun p member => Nat.lt_succ_of_lt (h.young p member), fun plain => ?_⟩
    · exact created.others outside range inserted.inserted (Nat.ne_of_lt (h.young p member))
        (h.apart p member)
    · have before : Covered (l.queue.created (newTimer id time interval cb)) := h.covered plain
      exact before.insert created outside range inserted
  | unknown _ _ nothing =>
    obtain ⟨p, known, _⟩ := regular
    exact absurd known (nothing p)
  | @cancelled id p timer tree _ known here deleted =>
    obtain ⟨x, known', k, member⟩ := regular
    rw [known, Option.some.injEq, Option.some.injEq] at known'
    subst known'
    obtain ⟨timer', here', attach, _⟩ := h.linked.linked k p member
    rw [here, Option.some.injEq] at here'
    subst here'
    cases deleted _ attach
    exact ⟨refs, (h.linked.remove member none).1, h.distinct,
      fun x held ⟨j, left⟩ => h.apart x held ⟨j, (SortedMap.mem_erase.mp left).1⟩, h.young,
      fun plain => (h.covered plain).shrink rfl rfl fun x left => (SortedMap.mem_erase.mp left).1⟩
  | ticked idle run =>
    obtain ⟨linked, fewer, taken, rfl, distinct, moved⟩ := collect_linked h.linked run
    obtain ⟨_, _, collected⟩ := collect_ok run
    refine ⟨refs, linked, distinct, fun p member => (moved p member).2, fun p member => ?_, fun _ => ?_⟩
    · exact h.allocated collected.same (moved p member).1
    · refine (h.covered (by rw [idle]; rfl)).shrink ?_ ?_ fewer
      · rw [collected.rest]
      · rw [collected.rest]
  | read idle readable run =>
    have start : Linked { l.queue with timerfd := .off } := ⟨h.linked.sorted, h.linked.linked⟩
    obtain ⟨linked, fewer, taken, rfl, distinct, moved⟩ := collect_linked start run
    obtain ⟨_, _, collected⟩ := collect_ok run
    exact ⟨refs, linked, distinct, fun p member => (moved p member).2,
      fun p member => h.allocated ⟨collected.same.refs, collected.same.allocated, collected.same.ids⟩
        (moved p member).1, nofun⟩
  | finished pc =>
    exact ⟨refs, h.linked, List.nodup_nil, nofun, nofun, fun _ => h.covered (by rw [pc]; rfl)⟩
  | rearmed pc run =>
    have covered := rearm_covered h.linked run
    obtain ⟨fd, rfl⟩ := rearm_ok run
    exact ⟨refs, ⟨h.linked.sorted, h.linked.linked⟩, List.nodup_nil, nofun, nofun, fun _ => covered⟩
  | fired pc here =>
    obtain ⟨_, linked, distinct, apart, young, covered⟩ := h
    rw [pc] at distinct apart young covered
    exact ⟨refs, linked.write (apart _ List.mem_cons_self) _, distinct, apart, young, covered⟩
  | dropped pc here =>
    obtain ⟨_, linked, distinct, apart, young, covered⟩ := h
    rw [pc] at distinct apart young covered
    exact ⟨refs, linked.write (apart _ List.mem_cons_self) _, (List.nodup_cons.mp distinct).2,
      fun x member => apart x (List.mem_cons_of_mem _ member),
      fun x member => young x (List.mem_cons_of_mem _ member), covered⟩
  | @readded p rest handling timer tree n fd pc here more inserted =>
    obtain ⟨_, linked, distinct, apart, young, covered⟩ := h
    have range := regular p rest handling timer pc here more
    rw [pc] at distinct apart young covered
    have outside := apart p List.mem_cons_self
    refine ⟨refs, (linked.insert outside range inserted.inserted fd).1, (List.nodup_cons.mp distinct).2,
      fun x member => ?_, fun x member => young x (List.mem_cons_of_mem _ member), fun plain => ?_⟩
    · have other : x ≠ p := fun same => (List.nodup_cons.mp distinct).1 (same ▸ member)
      exact linked.others outside range inserted.inserted other (apart x (List.mem_cons_of_mem _ member))
    · exact (covered plain).insert linked outside range inserted
  | ended pc here =>
    obtain ⟨_, linked, distinct, apart, young, covered⟩ := h
    rw [pc] at distinct apart young covered
    exact ⟨refs, linked.write (apart _ List.mem_cons_self) _, (List.nodup_cons.mp distinct).2,
      fun x member => apart x (List.mem_cons_of_mem _ member),
      fun x member => young x (List.mem_cons_of_mem _ member), covered⟩

/-- In every run with expiries strictly between 0 and 2^63 in which only pending timers are cancelled:
outside `HandleRead`, while some timer is stored, the timerfd is readable or armed for an instant no
later than the epoch plus the expiry of any stored timer. -/
theorem no_missed_deadline (clock : UInt64) (l : TimerLoop OrderedTimers Handle)
    (run : Reaches Steps Regular (start [] clock) l) (idle : l.pc = .idle) (p : Nat)
    (pending : Pending l.queue p) : l.queue.timerfd = .readable ∨
      ∃ deadline, l.queue.timerfd = .armed deadline ∧ ∀ x, Pending l.queue x →
        ∃ timer, l.queue.timers x = some timer ∧
          deadline.toNat ≤ l.queue.ownEpoch.toNat + timer.expire.toNat := by
  have kept : Kept l := run.invariant (start_kept clock) fun _ _ _ h regular taken =>
    h.step regular taken
  obtain ⟨_, member⟩ := pending
  have covered := kept.covered (by rw [idle]; rfl) (List.ne_nil_of_mem member)
  refine covered.imp_right ?_
  rintro ⟨deadline, armed, early⟩
  refine ⟨deadline, armed, fun x ⟨k, stored⟩ => ?_⟩
  obtain ⟨timer, here, _, key, _⟩ := kept.linked.linked k x stored
  have soon := early _ stored
  refine ⟨timer, here, ?_⟩
  dsimp only at soon
  omega

/-- After a `HandleRead` that comes at the very expiry the timer is still stored. -/
theorem no_missed_deadline_again : ∃ l : TimerLoop OrderedTimers Handle, Pending l.queue 0 ∧
    (l.queue.timerfd = .readable ∨ ∃ deadline, l.queue.timerfd = .armed deadline ∧
      ∀ x, Pending l.queue x → ∃ timer, l.queue.timers x = some timer ∧
        deadline.toNat ≤ l.queue.ownEpoch.toNat + timer.expire.toNat) := by
  have steps : ((start ([] : OrderedTimers) 1000).next (.addTimer 10 1 7) >>= fun l =>
      l.next (.clock 1010) >>= fun l => l.next .handleRead >>= fun l => l.next .visit).any
        fun l => l.pc = .idle ∧ (10, 0) ∈ l.queue.tree := by
    decide +kernel
  obtain ⟨l₄, made, test⟩ := (Option.any_eq_true _ _).mp steps
  obtain ⟨l₁, s₁, made⟩ := Option.bind_eq_some_iff.mp made
  obtain ⟨l₂, s₂, made⟩ := Option.bind_eq_some_iff.mp made
  obtain ⟨l₃, s₃, s₄⟩ := Option.bind_eq_some_iff.mp made
  obtain ⟨idle, stored⟩ := of_decide_eq_true test
  have added : Regular (start [] 1000) (.addTimer 10 1 7) := by
    refine ⟨?_, ?_⟩ <;> decide
  have due : Regular l₁ (.clock 1010) := trivial
  have read : Regular l₂ .handleRead := trivial
  have last : Regular l₃ .visit := trivial
  have run : Reaches Steps Regular (start [] 1000) l₄ :=
    .step (.step (.step (.step .start added s₁) due s₂) read s₃) last s₄
  exact ⟨l₄, ⟨10, stored⟩, no_missed_deadline 1000 l₄ run idle 0 ⟨10, stored⟩⟩

end TimerLoop

end Yamq
