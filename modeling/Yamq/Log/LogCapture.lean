import Yamq.Log.LogStream

/-! `log/logging.cpp`: a record from the constructor of `LogCapture` to its destructor, which ends it
through the same `append` as the text that the caller streams. What the clock says, the thread id and
the stack trace are inputs. -/
namespace Yamq.Stream

inductive Level where
  | trace
  | info
  | warning
  | error
  | fatal
deriving DecidableEq, Repr

def logLevelNames : Level → Bytes
  | .trace => ascii "TRACE"
  | .info => ascii "INFO"
  | .warning => ascii "WARNING"
  | .error => ascii "ERROR"
  | .fatal => ascii "FATAL"

/-- What `nowTime` returns, and the fields that it sets in `tm`. -/
structure ReadableTime where
  now : UInt64
  tmYear : Int32
  tmMon : Int32
  tmMday : Int32
  tmHour : Int32
  tmMin : Int32
  tmSec : Int32
deriving DecidableEq, Repr

/-- `%0*d`. -/
def zeroPadded (width : Nat) (v : Int) : Bytes :=
  if v < 0 then 45 :: (ascii (toString v.natAbs)).leftpad (width - 1) 48
  else (ascii (toString v.natAbs)).leftpad width 48

/-- `%02d%02d%02d %02d:%02d:%02d.%06d` -/
def timeText (tm : ReadableTime) : Bytes :=
  zeroPadded 2 tm.tmYear.toInt ++ zeroPadded 2 tm.tmMon.toInt ++ zeroPadded 2 tm.tmMday.toInt ++
  ascii " " ++ zeroPadded 2 tm.tmHour.toInt ++ ascii ":" ++ zeroPadded 2 tm.tmMin.toInt ++
  ascii ":" ++ zeroPadded 2 tm.tmSec.toInt ++ ascii "." ++ zeroPadded 6 (tm.now.toNat % 1000000)

/-- `_format_time` returns the length that it was given, not what it has stored. -/
def formatTime (data : Bytes) (buf : Nat) (tm : ReadableTime) : Except Fault (Bytes × Nat) := do
  let len := 22
  let data ← snprintf data buf len (timeText tm)
  return (data, len)

structure LogCapture where
  file : Bytes
  line : Int32
  level : Level
  stream : FixedBuffer
deriving DecidableEq, Repr

/-- What the destructor hands to `g_loggingSaveFunc`, and whether it calls `abort` afterwards. -/
structure Saved where
  message : Bytes
  aborts : Bool
deriving DecidableEq, Repr

/-- The branch of `formatPrefix` that stores the time. -/
def FixedBuffer.storeTime (buf : FixedBuffer) (tm : ReadableTime) : Except Fault FixedBuffer :=
  if 22 ≤ buf.remain then do
    let (data, len) ← formatTime buf.data buf.cur tm
    return { buf with data := data }.offset (len - 1)
  else .ok buf

/-- The items of `formatPrefix`. -/
def location (file : Bytes) (line tid : Int32) : List Item :=
  [.chars (ascii " "), .int tid, .chars (ascii " "), .chars file, .chars (ascii ":"), .int line,
    .chars (ascii "] ")]

namespace LogCapture

def formatPrefix (capture : LogCapture) (tm : ReadableTime) (tid : Int32) :
    Except Fault LogCapture := do
  let (_, buf) ← capture.stream.append ((logLevelNames capture.level).take 1)
  let buf ← buf.storeTime tm
  let stream ← (location capture.file capture.line tid).foldlM FixedBuffer.insert buf
  return { capture with stream := stream }

def new (memory : Fin kMaxLogMessageLen → Byte) (file : Bytes) (line : Int32) (level : Level)
    (tm : ReadableTime) (tid : Int32) : Except Fault LogCapture :=
  formatPrefix ⟨file, line, level, .new memory⟩ tm tid

/-- `~LogCapture`. -/
def destroy (capture : LogCapture) (stacktrace : Bytes) : Except Fault Saved := do
  let (_, buffer) ← capture.stream.append [LF]
  if capture.level = .fatal then do
    let (_, buffer) ← buffer.append stacktrace
    return ⟨buffer.contents, true⟩
  else return ⟨buffer.contents, false⟩

/-- `LOG(level) << items…;` -/
def log (memory : Fin kMaxLogMessageLen → Byte) (file : Bytes) (line : Int32) (level : Level)
    (tm : ReadableTime) (tid : Int32) (items : List Item) (stacktrace : Bytes) :
    Except Fault Saved := do
  let capture ← new memory file line level tm tid
  let stream ← items.foldlM FixedBuffer.insert capture.stream
  destroy { capture with stream := stream } stacktrace

end LogCapture

/-! The head of a record: the letter of the level and the time, always of one length. -/

def head (level : Level) (tm : ReadableTime) : Bytes :=
  (logLevelNames level).take 1 ++ (timeText tm).take 21

/-- The items of a record that find space, behind a head of 22 bytes. -/
def recorded (file : Bytes) (line tid : Int32) (items : List Item) : List Item :=
  taken 22 (location file line tid ++ items)

theorem zeroPadded_length (width : Nat) (v : Int) : width ≤ (zeroPadded width v).length := by
  have padded (w : Nat) (digits : Bytes) : w ≤ (digits.leftpad w 48).length := by
    rw [List.leftpad, List.length_append, List.length_replicate]
    omega
  unfold zeroPadded
  split
  · have rest := padded (width - 1) (ascii (toString v.natAbs))
    rw [List.length_cons]
    omega
  · exact padded width _

theorem timeText_length (tm : ReadableTime) : 22 ≤ (timeText tm).length := by
  have year := zeroPadded_length 2 tm.tmYear.toInt
  have mon := zeroPadded_length 2 tm.tmMon.toInt
  have mday := zeroPadded_length 2 tm.tmMday.toInt
  have hour := zeroPadded_length 2 tm.tmHour.toInt
  have min := zeroPadded_length 2 tm.tmMin.toInt
  have sec := zeroPadded_length 2 tm.tmSec.toInt
  have micro := zeroPadded_length 6 (tm.now.toNat % 1000000)
  have marks : (ascii " ").length = 1 ∧ (ascii ":").length = 1 ∧ (ascii ".").length = 1 := by decide
  simp only [timeText, List.length_append]
  omega

theorem head_length (level : Level) (tm : ReadableTime) : (head level tm).length = 22 := by
  have letter : ((logLevelNames level).take 1).length = 1 := by cases level <;> decide
  have long := timeText_length tm
  rw [head, List.length_append, letter, List.length_take]
  omega

namespace FixedBuffer

variable {b : FixedBuffer} {held : Bytes}

/-- The time is cut to 21 bytes, with a NUL behind them that the next item overwrites. -/
theorem Holds.storeTime (h : b.Holds held) (room : held.length + 22 ≤ kMaxLogMessageLen)
    (tm : ReadableTime) : ∃ c, b.storeTime tm = .ok c ∧ c.Holds (held ++ (timeText tm).take 21) := by
  have space := h.remain
  have enough : 22 ≤ b.remain := by omega
  have cut : ((timeText tm).take 21).length = 21 := by
    have long := timeText_length tm
    rw [List.length_take]
    omega
  obtain ⟨back, rfl, size⟩ := h
  have copied := memcpy_behind held back ((timeText tm).take 21 ++ [0])
    (by rw [List.length_append, cut, List.length_singleton]; omega)
  have stored := holds_converted size (by rw [cut]; omega)
  rw [cut] at stored
  refine ⟨_, ?_, stored⟩
  rw [List.length_append, cut, List.length_singleton, List.append_assoc] at copied
  rw [FixedBuffer.storeTime, if_pos enough, formatTime, snprintf, if_neg (by decide), copied]
  rfl

end FixedBuffer

namespace LogCapture

variable (memory : Fin kMaxLogMessageLen → Byte) (file : Bytes) (line : Int32) (level : Level)
  (tm : ReadableTime) (tid : Int32) (items : List Item) (stacktrace : Bytes)

/-- What the stream holds when the destructor runs. -/
theorem streamed_holds : ∃ capture b, new memory file line level tm tid = .ok capture ∧
    capture.level = level ∧ items.foldlM FixedBuffer.insert capture.stream = .ok b ∧
    b.Holds (head level tm ++ textOf (recorded file line tid items)) := by
  have letter : ((logLevelNames level).take 1).length = 1 := by cases level <;> decide
  obtain ⟨c, named, held⟩ := (FixedBuffer.new_holds memory).append ((logLevelNames level).take 1)
  rw [List.nil_append, List.length_nil, letter, if_pos (by decide)] at held
  obtain ⟨d, timed, headed⟩ := held.storeTime (by rw [letter]; decide) tm
  obtain ⟨b, inserted, full⟩ := FixedBuffer.insertAll_holds (location file line tid ++ items) headed
  rw [List.foldlM_append, bind_eq_ok] at inserted
  obtain ⟨e, located, rest⟩ := inserted
  have length := head_length level tm
  rw [head] at length
  rw [length] at full
  refine ⟨⟨file, line, level, e⟩, b, ?_, rfl, rest, full⟩
  simp only [new, formatPrefix, named, ok_bind, timed, located]
  rfl

/-- Below FATAL, a record is its head, the texts of the items that find space, and a newline where one
byte is left for it. -/
theorem log_spec (below : level ≠ .fatal) :
    (textOf (recorded file line tid items)).length + 22 ≤ kMaxLogMessageLen ∧
    log memory file line level tm tid items stacktrace =
      .ok ⟨head level tm ++ textOf (recorded file line tid items) ++
        if (textOf (recorded file line tid items)).length + 22 < kMaxLogMessageLen then [LF] else [],
        false⟩ := by
  obtain ⟨capture, b, made, named, streamed, held⟩ := streamed_holds memory file line level tm tid items
  have space := held.remain
  obtain ⟨c, ended, held'⟩ := held.append [LF]
  have length : (head level tm ++ textOf (recorded file line tid items)).length =
      (textOf (recorded file line tid items)).length + 22 := by
    rw [List.length_append, head_length, Nat.add_comm]
  rw [length] at space held'
  constructor
  · omega
  · have lives : capture.level ≠ .fatal := by rw [named]; exact below
    simp only [log, made, ok_bind, streamed, destroy, ended, lives, if_false, held'.contents]
    rfl

/-- For every source location, level below FATAL, clock and sequence of items: the message ends with a
newline where the items that find space leave a byte behind the head of 22, or end with one themselves.
Elsewhere they fill the buffer, and the newline is dropped. -/
theorem terminated_iff (below : level ≠ .fatal) :
    ∃ saved, log memory file line level tm tid items stacktrace = .ok saved ∧
      (saved.message.getLast? = some LF ↔
        (textOf (recorded file line tid items)).length + 22 < kMaxLogMessageLen ∨
          (textOf (recorded file line tid items)).getLast? = some LF) := by
  obtain ⟨fits, saves⟩ := log_spec memory file line level tm tid items stacktrace below
  refine ⟨_, saves, ?_⟩
  by_cases left : (textOf (recorded file line tid items)).length + 22 < kMaxLogMessageLen
  · simp [left]
  · have filled : (textOf (recorded file line tid items)).getLast? ≠ none := by
      intro empty
      rw [List.getLast?_eq_none_iff] at empty
      rw [empty] at left
      exact left (by decide)
    obtain ⟨last, ends⟩ := Option.ne_none_iff_exists'.mp filled
    simp [left, List.getLast?_append, ends]

/-- 3.14 -/
def piAbout : Double := .finite false ⟨7070651414971679, by decide⟩ 1023

/-- A `double` and a text of 2961 bytes leave one byte for the newline, which takes it. -/
theorem terminated_last_byte : ∃ saved, log (fun _ => 170) (ascii "a.cpp") 7 .info
    ⟨1, 124, 0, 5, 22, 4, 5⟩ 1 [.double piAbout, .string (List.replicate 2961 120)] [] = .ok saved ∧
    (textOf (recorded (ascii "a.cpp") 7 1
      [.double piAbout, .string (List.replicate 2961 120)])).length + 22 = 2999 ∧
    saved.message.getLast? = some LF := by
  have filled : (textOf (recorded (ascii "a.cpp") 7 1
      [.double piAbout, .string (List.replicate 2961 120)])).length + 22 = 2999 := by decide +kernel
  obtain ⟨saved, saves, ends⟩ := terminated_iff (fun _ => 170) (ascii "a.cpp") 7 .info
    ⟨1, 124, 0, 5, 22, 4, 5⟩ 1 [.double piAbout, .string (List.replicate 2961 120)] [] (by decide)
  exact ⟨saved, saves, filled, ends.mpr (.inl (by rw [filled]; decide))⟩

/-- A text of 2966 bytes behind the head and the location leaves no space for the newline. -/
theorem newline_dropped : ¬ ∀ (memory : Fin kMaxLogMessageLen → Byte) (file : Bytes) (line : Int32)
    (level : Level) (tm : ReadableTime) (tid : Int32) (items : List Item) (stacktrace : Bytes),
    level ≠ .fatal → ∃ saved, log memory file line level tm tid items stacktrace = .ok saved ∧
      saved.message.getLast? = some LF := by
  intro always
  have full : (textOf (recorded (ascii "a.cpp") 7 1 [.string (List.replicate 2966 120)])).length + 22 =
      kMaxLogMessageLen := by decide +kernel
  have last : (textOf (recorded (ascii "a.cpp") 7 1 [.string (List.replicate 2966 120)])).getLast? =
      some 120 := by decide +kernel
  obtain ⟨saved, saves, ends⟩ := always (fun _ => 170) (ascii "a.cpp") 7 .info
    ⟨1, 124, 0, 5, 22, 4, 5⟩ 1 [.string (List.replicate 2966 120)] [] (by decide)
  obtain ⟨_, spec⟩ := log_spec (fun _ => 170) (ascii "a.cpp") 7 .info ⟨1, 124, 0, 5, 22, 4, 5⟩ 1
    [.string (List.replicate 2966 120)] [] (by decide)
  rw [spec, full, if_neg (Nat.lt_irrefl _), List.append_nil] at saves
  rw [← Except.ok.inj saves, List.getLast?_append, last] at ends
  exact absurd ends (by decide)

end LogCapture

end Yamq.Stream
