import Yamq.Log.RollSize

/-! Where the messages go when every `fwrite` is complete and any `fopen` of a `roll` may fail. -/
namespace Yamq.Files

/-- An append whose `fwrite` is complete, of a message and with what `fopen` does in a `roll` behind
it. -/
def LogFile.appendFull (f : LogFile) (s : FileSystem) (m : Bytes × Bool) :
    Except Fault (LogFile × FileSystem) := do
  let (_, f, s) ← f.append s m.1 true [m.1.length] m.2
  return (f, s)

/-- A file between its opening and the roll to the next one: the messages it got. -/
structure Session where
  ino : Nat
  messages : List Bytes := []
deriving DecidableEq, Repr

def Session.text (x : Session) : Bytes := x.messages.flatten

/-- What these sessions added to an inode. -/
def added (sessions : List Session) (ino : Nat) : Bytes :=
  (sessions.filter (·.ino = ino)).flatMap Session.text

/-- The name of the file that the `i`-th roll opens. -/
def pathAt (base : Bytes) (i : Nat) : Bytes :=
  if 0 < i.toUInt32 then base ++ ascii "_" ++ ascii (toString i.toUInt32.toNat) else base

/-- The messages have gone to these sessions, in this order, whole, and to the files as the sessions
say; every session but the last got at least the roll size, and the roll index counts them. -/
structure KeptInOrder (before : FileSystem) (base : Bytes) (rollSize : Nat) (messages : List Bytes)
    (f : LogFile) (s : FileSystem) (sessions : List Session) : Prop where
  whole : sessions.flatMap Session.messages = messages
  bytes : ∀ ino, s.bytes ino = before.bytes ino ++ added sessions ino
  named : ∀ i ino, (sessions.map Session.ino)[i]? = some ino → s.names (pathAt base i) = some ino
  full : ∀ x ∈ sessions.dropLast, rollSize ≤ x.text.length
  index : f.rollIndex = sessions.length.toUInt32
  opened : s.opened = before.opened + sessions.length

theorem added_append (xs ys : List Session) (ino : Nat) :
    added (xs ++ ys) ino = added xs ino ++ added ys ino := by
  rw [added, List.filter_append, List.flatMap_append]
  rfl

theorem added_single (x : Session) (ino : Nat) :
    added [x] ino = if x.ino = ino then x.text else [] := by
  by_cases here : x.ino = ino <;> simp [added, here]

/-- What a run of appends keeps. -/
structure Logging (before : FileSystem) (base : Bytes) (rollSize : Nat) (messages : List Bytes)
    (f : LogFile) (s : FileSystem) (front : List Session) (last : Session) : Prop
    extends KeptInOrder before base rollSize messages f s (front ++ [last]) where
  size : f.kRollSize = rollSize
  path : f.filepath = base
  current : ∃ w, f.file = some w ∧ Open w s last.ino ∧ w.writenChars = last.text.length

section
variable {before s : FileSystem} {base data : Bytes} {rollSize : Nat} {messages : List Bytes}
  {f : LogFile} {front : List Session} {last : Session}

/-- A complete write adds its message to the last session. -/
theorem Logging.write (h : Logging before base rollSize messages f s front last) (some_ : data ≠ [])
    (short : data.length < 18446744073709551616) :
    ∃ w w' s', f.file = some w ∧
      w.append s data true [data.length] = .ok (data.length, w', s') ∧
      Logging before base rollSize (messages ++ [data]) { f with file := some w' } s' front
        { last with messages := last.messages ++ [data] } ∧
      w'.writenChars = (last.messages ++ [data]).flatten.length := by
  obtain ⟨w, held, open_, count⟩ := h.current
  have longer : w.writenChars + data.length = (last.messages ++ [data]).flatten.length := by
    rw [count, Session.text, List.flatten_append, List.length_append]
    simp
  refine ⟨w, { w with writenChars := w.writenChars + data.length },
    s.extended last.ino data, held, open_.append some_ short true,
    ⟨⟨?_, fun ino => ?_, fun i ino at_i => ?_, ?_, ?_, ?_⟩, h.size, h.path,
      _, rfl, ⟨open_.valid, open_.stream, open_.name, open_.stat⟩, longer⟩, longer⟩
  · rw [← h.whole, List.flatMap_append, List.flatMap_append, List.append_assoc]
    simp
  · have old := h.bytes ino
    rw [added_append, added_single] at old ⊢
    by_cases here : last.ino = ino
    · rw [if_pos here] at old ⊢
      subst here
      rw [s.extended_bytes, old, Session.text, Session.text, List.flatten_append]
      simp
    · rw [if_neg here] at old ⊢
      rw [s.extended_others (Ne.symm here), old]
  · rw [List.map_append] at at_i
    exact h.named i ino (by rw [List.map_append]; exact at_i)
  · have same := h.full
    rwa [List.dropLast_concat] at same ⊢
  · have same := h.index
    rwa [List.length_append, List.length_singleton] at same ⊢
  · have same := h.opened
    rwa [List.length_append, List.length_singleton] at same ⊢

/-- The name that the next roll takes. -/
theorem Logging.rollPath (h : Logging before base rollSize messages f s front last)
    (some_ : base ≠ []) :
    f.rollPath = pathAt base (front ++ [last]).length ∧ f.basePath = base := by
  have same : f.basePath = base := by
    rw [LogFile.basePath, h.path, if_neg some_]
  refine ⟨?_, same⟩
  rw [LogFile.rollPath, same, h.index, pathAt]

/-- A roll whose `fopen` fails changes nothing. -/
theorem Logging.roll_fails (h : Logging before base rollSize messages f s front last)
    (some_ : base ≠ []) :
    f.roll s false = .ok (false, f, s) := by
  have path : { f with filepath := f.basePath } = f := by
    rw [(h.rollPath some_).2, ← h.path]
  have fails : f.roll s false = .ok (false, { f with filepath := f.basePath }, s) := rfl
  rw [fails, path]

/-- One that succeeds begins the next session. -/
theorem Logging.roll (h : Logging before base rollSize messages f s front last) (some_ : base ≠ [])
    (full : rollSize ≤ last.text.length) :
    ∃ f' s' x, f.roll s true = .ok (true, f', s') ∧
      Logging before base rollSize messages f' s' (front ++ [last]) x := by
  obtain ⟨w, held, open_, _⟩ := h.current
  obtain ⟨path, base_⟩ := h.rollPath some_
  obtain ⟨w', s', ino, run, begun⟩ := roll_open (open_.droppable held)
  refine ⟨f.rolled w', s', ⟨ino, []⟩, run, ⟨⟨?_, fun i => ?_, fun i x at_i => ?_, ?_, ?_, ?_⟩, h.size,
    base_, w', rfl, begun.open_, begun.count⟩⟩
  · rw [List.flatMap_append, h.whole]
    simp
  · have nothing : added [(⟨ino, []⟩ : Session)] i = [] := by
      rw [added_single]
      split <;> rfl
    rw [begun.bytes, h.bytes, added_append (front ++ [last]), nothing, List.append_nil]
  · rw [List.map_append] at at_i
    rcases Nat.lt_or_ge i ((front ++ [last]).map Session.ino).length with old | new
    · rw [List.getElem?_append_left old] at at_i
      exact begun.names _ _ (h.named i x at_i)
    · rw [List.getElem?_append_right new, List.map_singleton, List.getElem?_singleton] at at_i
      have count : ((front ++ [last]).map Session.ino).length = (front ++ [last]).length :=
        List.length_map ..
      split at at_i
      · cases at_i
        have here : i = (front ++ [last]).length := by omega
        rw [here, ← path, ← begun.path]
        exact begun.open_.name
      · cases at_i
  · rw [List.dropLast_concat]
    intro x member
    rcases List.mem_append.mp member with old | new
    · exact h.full x (by rwa [List.dropLast_concat])
    · cases List.mem_singleton.mp new
      exact full
  · have next : (front ++ [last] ++ [(⟨ino, []⟩ : Session)]).length = (front ++ [last]).length + 1 :=
      List.length_append ..
    rw [next]
    exact (congrArg (· + 1) h.index).trans (UInt32.ofNat_add ..).symm
  · have next : (front ++ [last] ++ [(⟨ino, []⟩ : Session)]).length = (front ++ [last]).length + 1 :=
      List.length_append ..
    rw [begun.opened, h.opened, next, Nat.add_assoc]

/-- One append: the message, and the roll behind it. -/
theorem Logging.append (h : Logging before base rollSize messages f s front last)
    (named : base ≠ []) (some_ : data ≠ []) (short : data.length < 18446744073709551616)
    (rolls : Bool) :
    ∃ f' s' front' last', f.appendFull s (data, rolls) = .ok (f', s') ∧
      Logging before base rollSize (messages ++ [data]) f' s' front' last' := by
  obtain ⟨w, w', s', held, appends, written, count⟩ := h.write some_ short
  by_cases full : 0 < f.kRollSize ∧ f.kRollSize ≤ w'.writenChars
  · have appended : f.appendFull s (data, rolls) =
        ({ f with file := some w' } : LogFile).roll s' rolls >>= fun r => .ok (r.2.1, r.2.2) := by
      simp only [LogFile.appendFull, LogFile.append, held, appends, ok_bind, if_pos full, bind_assoc,
        pure_ok]
    cases rolls with
    | false =>
      refine ⟨_, s', front, _, ?_, written⟩
      rw [appended, written.roll_fails named]
      rfl
    | true =>
      have enough : rollSize ≤ (last.messages ++ [data]).flatten.length := by
        rw [← count, ← h.size]
        exact full.2
      obtain ⟨f', s'', x, run, began⟩ := written.roll named enough
      refine ⟨f', s'', _, x, ?_, began⟩
      rw [appended, run]
      rfl
  · refine ⟨_, s', front, _, ?_, written⟩
    simp only [LogFile.appendFull, LogFile.append, held, appends, ok_bind, if_neg full, pure_ok]

theorem Logging.run (h : Logging before base rollSize messages f s front last)
    (named : base ≠ []) (more : List (Bytes × Bool))
    (fit : ∀ m ∈ more, m.1 ≠ [] ∧ m.1.length < 18446744073709551616) :
    ∃ f' s' front' last', more.foldlM (fun p m => LogFile.appendFull p.1 p.2 m) (f, s) = .ok (f', s') ∧
      Logging before base rollSize (messages ++ more.map Prod.fst) f' s' front' last' := by
  induction more generalizing messages f s front last with
  | nil =>
    rw [List.map_nil, List.append_nil]
    exact ⟨f, s, front, last, rfl, h⟩
  | cons m more ih =>
    obtain ⟨some_, short⟩ := fit m List.mem_cons_self
    obtain ⟨f₁, s₁, front₁, last₁, first, h₁⟩ := h.append named some_ short m.2
    obtain ⟨f₂, s₂, front₂, last₂, rest, h₂⟩ := ih h₁ fun m' member =>
      fit m' (List.mem_cons_of_mem m member)
    refine ⟨f₂, s₂, front₂, last₂, ?_, ?_⟩
    · rw [List.foldlM_cons, first, ok_bind, rest]
    · rw [List.append_assoc] at h₂
      exact h₂

end

/-- The first file of a `LogFile`. -/
theorem logging_start (dirname filename extension : Bytes) (rollSize : Nat) (before : FileSystem) :
    ∃ f s last, LogFile.new dirname filename rollSize extension before true = .ok (f, s) ∧
      Logging before (dirname ++ ascii "/" ++ filename ++ ascii "." ++ extension) rollSize [] f s []
        last := by
  let fresh : LogFile := { dirname, filename, extension, kRollSize := rollSize }
  have held : Droppable fresh before := by
    intro w none
    cases none
  obtain ⟨w, s, ino, run, begun⟩ := roll_open held
  have path : fresh.rollPath = dirname ++ ascii "/" ++ filename ++ ascii "." ++ extension :=
    if_neg (UInt32.lt_irrefl 0)
  refine ⟨fresh.rolled w, s, ⟨ino, []⟩, ?_, ⟨⟨rfl, fun i => ?_, fun i x at_i => ?_, nofun, rfl,
    begun.opened⟩, rfl, rfl, w, rfl, begun.open_, begun.count⟩⟩
  · have built : fresh.roll before true = .ok (true, fresh.rolled w, s) := run
    change fresh.roll before true >>= (fun r => pure (r.2.1, r.2.2)) = _
    rw [built]
    rfl
  · have nothing : added ([] ++ [(⟨ino, []⟩ : Session)]) i = [] := by
      rw [List.nil_append, added_single]
      split <;> rfl
    rw [begun.bytes, nothing, List.append_nil]
  · cases i with
    | zero =>
      cases at_i
      have first := begun.open_.name
      rwa [begun.path, path] at first
    | succ i => cases at_i

/-- When no two sessions are on one file, each file has just the text of its session behind what it
held. -/
theorem added_of_mem {sessions : List Session} (distinct : (sessions.map Session.ino).Nodup)
    {x : Session}
    (member : x ∈ sessions) : added sessions x.ino = x.text := by
  induction sessions with
  | nil => cases member
  | cons y ys ih =>
    rw [List.map_cons, List.nodup_cons] at distinct
    rw [← List.singleton_append, added_append, added_single]
    rcases List.mem_cons.mp member with rfl | later
    · have none : added ys x.ino = [] := by
        rw [added, List.filter_eq_nil_iff.mpr]
        · rfl
        · intro z among same
          exact distinct.1 (List.mem_map.mpr ⟨z, among, of_decide_eq_true same⟩)
      rw [if_pos rfl, none, List.append_nil]
    · have apart : y.ino ≠ x.ino := fun same => distinct.1 (List.mem_map.mpr ⟨x, later, same.symm⟩)
      rw [if_neg apart, List.nil_append, ih distinct.2 later]

theorem KeptInOrder.files {before s : FileSystem} {base : Bytes} {rollSize : Nat}
    {messages : List Bytes} {f : LogFile} {sessions : List Session}
    (kept : KeptInOrder before base rollSize messages f s sessions)
    (distinct : (sessions.map Session.ino).Nodup) :
    sessions.flatMap (fun x => (s.bytes x.ino).drop (before.bytes x.ino).length) =
      messages.flatten := by
  have each : ∀ x ∈ sessions, (s.bytes x.ino).drop (before.bytes x.ino).length = x.text := by
    intro x member
    rw [kept.bytes, List.drop_left, added_of_mem distinct member]
  rw [List.flatMap_def, List.map_congr_left each, ← kept.whole, List.flatMap_def, List.flatten_flatten,
    List.map_map]
  rfl

/-- For every `LogFile` whose constructor opened its file, on any files, and every sequence of appends
of non-empty messages, whatever the `fopen`s of the rolls do. -/
theorem rolling_keeps (dirname filename extension : Bytes) (rollSize : Nat)
    (before : FileSystem) (messages : List (Bytes × Bool))
    (fit : ∀ m ∈ messages, m.1 ≠ [] ∧ m.1.length < 18446744073709551616) :
    ∃ f₀ s₀ f s sessions,
      LogFile.new dirname filename rollSize extension before true = .ok (f₀, s₀) ∧
      messages.foldlM (fun p m => LogFile.appendFull p.1 p.2 m) (f₀, s₀) = .ok (f, s) ∧
      KeptInOrder before (dirname ++ ascii "/" ++ filename ++ ascii "." ++ extension) rollSize
        (messages.map Prod.fst) f s sessions ∧
      ((sessions.map Session.ino).Nodup → sessions.flatMap (fun x =>
        (s.bytes x.ino).drop (before.bytes x.ino).length) = (messages.map Prod.fst).flatten) := by
  obtain ⟨f₀, s₀, last₀, built, begins⟩ := logging_start dirname filename extension rollSize before
  have named : dirname ++ ascii "/" ++ filename ++ ascii "." ++ extension ≠ [] := by
    intro none
    simp only [List.append_eq_nil_iff] at none
    exact absurd none.1.1.1.2 (by decide)
  obtain ⟨f, s, front, last, run, logging⟩ := begins.run named messages fit
  exact ⟨f₀, s₀, f, s, front ++ [last], built, run, logging.toKeptInOrder, logging.toKeptInOrder.files⟩

/-- The first roll fails and is made behind the next message. -/
theorem rolling_keeps_failed : ∃ f s sessions, KeptInOrder {}
    (ascii "d" ++ ascii "/" ++ ascii "f" ++ ascii "." ++ ascii "log") 2
    [ascii "ab", ascii "c", ascii "d"] f s sessions := by
  obtain ⟨_, _, f, s, sessions, _, _, kept, _⟩ :=
    rolling_keeps (ascii "d") (ascii "f") (ascii "log") 2 {}
      [(ascii "ab", false), (ascii "c", true), (ascii "d", true)] (by decide)
  exact ⟨f, s, sessions, kept⟩

end Yamq.Files
