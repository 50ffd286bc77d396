import Yamq.Lib.SortedMap
import Yamq.Rpc.IoBufferRoom

/-! `rpc/http/http_response.h` and `rpc/http/http_response.cpp`. -/
namespace Yamq

inductive HttpStatusCode where
  | kUnknown | k200Ok | k301MovedPermanently | k400BadRequest | k404NotFound
deriving DecidableEq, Repr

def HttpStatusCode.value : HttpStatusCode → Nat
  | .kUnknown => 0
  | .k200Ok => 200
  | .k301MovedPermanently => 301
  | .k400BadRequest => 400
  | .k404NotFound => 404

structure HttpResponse where
  headers : List (Bytes × Bytes) := []
  statusCode : HttpStatusCode := .kUnknown
  statusMessage : Bytes := []
  closeConnection : Bool
  body : Bytes := []
deriving DecidableEq, Repr

namespace HttpResponse

def new (close : Bool) : HttpResponse := { closeConnection := close }

def setStatusCode (r : HttpResponse) (code : HttpStatusCode) : HttpResponse :=
  { r with statusCode := code }
def setStatusMessage (r : HttpResponse) (message : Bytes) : HttpResponse :=
  { r with statusMessage := message }
def setCloseConnection (r : HttpResponse) (on : Bool) : HttpResponse := { r with closeConnection := on }
def addHeader (r : HttpResponse) (key value : Bytes) : HttpResponse :=
  { r with headers := SortedMap.insert key value r.headers }
def setContentType (r : HttpResponse) (contentType : Bytes) : HttpResponse :=
  r.addHeader (ascii "Content-Type") contentType
def setBody (r : HttpResponse) (body : Bytes) : HttpResponse := { r with body := body }

def crlf : Bytes := [CR, LF]

/-- What `snprintf` leaves in `buf[32]`. -/
def snprintf32 (s : String) : Bytes := (ascii s).take 31

def connectionPieces (r : HttpResponse) : List Bytes :=
  if r.closeConnection then [ascii "Connection: close" ++ crlf]
  else [snprintf32 ("Content-Length: " ++ toString r.body.length ++ "\r\n"),
    ascii "Connection: Keep-Alive" ++ crlf]

/-- The arguments of the `Append` calls of `appendToBuffer`. -/
def pieces (r : HttpResponse) : List Bytes :=
  snprintf32 ("HTTP/1.1 " ++ toString r.statusCode.value ++ " ") :: r.statusMessage :: crlf ::
    (r.connectionPieces ++
      (r.headers.flatMap fun h => [h.1, ascii ": ", h.2, crlf]) ++ [crlf, r.body])

def bytes (r : HttpResponse) : Bytes := r.pieces.flatten

def appendToBuffer (r : HttpResponse) (output : IoBuffer) : Except Fault IoBuffer :=
  r.pieces.foldlM IoBuffer.append output

end HttpResponse

/-! Appending to a buffer from which nothing has been taken. -/

namespace IoBuffer

/-- A buffer that has only been written to. -/
structure Written (b : IoBuffer) : Prop extends b.Small where
  reader : b.readerIndex = kCheapPrepend

theorem new_written (n : Nat) (short : n + 8 < 2147483648) : (new n).Written :=
  ⟨new_small n short, rfl⟩

theorem Written.writer {b : IoBuffer} (h : b.Written) :
    b.writerIndex = kCheapPrepend + b.contents.length := by
  have len := contents_length h.toLayout
  have start := h.reader
  simp only [readableBytes] at len
  omega

theorem put_nil {b : IoBuffer} (h : b.Small) : b.put [] = .ok b := by
  have range := h.range
  have size := h.size
  have prepend := h.prepend
  have order := h.order
  have inside := h.inside
  simp only [kCheapPrepend] at prepend
  have zero : toInt (0 : Nat) = 0 := toInt_small (by decide) (by decide)
  have space : b.writableBytes = b.buf.length - b.writerIndex := by
    rw [writableBytes, toInt_small] <;> omega
  have roomy : ¬ b.writableBytes < 0 := by omega
  have stored : store b.buf b.writerIndex [] = .ok b.buf := by
    rw [store, if_pos ⟨by omega, by simp only [List.length_nil]; omega⟩]
    simp
  have added : addInt b.writerIndex 0 = .ok b.writerIndex := by
    rw [addInt_ok] <;> simp <;> omega
  have moved : b.wseek 0 = .ok b := by
    rw [wseek, if_pos (Int.not_lt.mp roomy), added]
    rfl
  rw [put, ensureSpace, List.length_nil, zero, if_neg roomy, ok_bind, stored, ok_bind]
  exact moved

theorem put_written {b : IoBuffer} (h : b.Written) (data : Bytes)
    (room : b.writerIndex + data.length < 2147483648) :
    ∃ c, b.put data = .ok c ∧ c.Written ∧ c.contents = b.contents ++ data := by
  by_cases none : data = []
  · subst none
    exact ⟨b, put_nil h.toSmall, h, (List.append_nil _).symm⟩
  · obtain ⟨c, run, small, contents⟩ := put_fits h.toSmall data (.inl room) none
    refine ⟨c, run, ⟨small, ?_⟩, contents⟩
    rcases (put_bounds run).2 with same | same
    · rw [same, h.reader]
    · exact same

theorem appendAll_written (pieces : List Bytes) {b : IoBuffer} (h : b.Written)
    (room : b.writerIndex + pieces.flatten.length < 2147483648) :
    ∃ c, pieces.foldlM append b = .ok c ∧ c.Written ∧ c.contents = b.contents ++ pieces.flatten := by
  induction pieces generalizing b with
  | nil => exact ⟨b, rfl, h, by simp⟩
  | cons piece pieces ih =>
    simp only [List.flatten_cons, List.length_append] at room
    obtain ⟨c, run, written, contents⟩ := put_written h piece (by omega)
    have writer := written.writer
    have before := h.writer
    rw [contents, List.length_append] at writer
    obtain ⟨d, rest, done, whole⟩ := ih written (by omega)
    refine ⟨d, ?_, done, ?_⟩
    · rw [List.foldlM_cons, append, run, ok_bind, rest]
    · rw [whole, contents, List.flatten_cons, List.append_assoc]

/-- Whatever the appends did, the reader has not moved and the writer is an `int`. -/
theorem appendAll_bounds (pieces : List Bytes) {b c : IoBuffer}
    (reader : b.readerIndex = kCheapPrepend) (writer : b.writerIndex < 2147483648)
    (run : pieces.foldlM append b = .ok c) :
    c.readerIndex = kCheapPrepend ∧ c.writerIndex < 2147483648 := by
  induction pieces generalizing b with
  | nil =>
    cases run
    exact ⟨reader, writer⟩
  | cons piece pieces ih =>
    rw [List.foldlM_cons, bind_eq_ok] at run
    obtain ⟨d, first, rest⟩ := run
    obtain ⟨high, same⟩ := put_bounds first
    apply ih _ high rest
    rcases same with same | same
    · rw [same, reader]
    · exact same

end IoBuffer

namespace HttpResponse

/-- The response lies whole in a fresh buffer. -/
def Buffered (r : HttpResponse) : Prop :=
  ∃ out, r.appendToBuffer (.new IoBuffer.kInitialSize) = .ok out ∧ out.contents = r.bytes

/-- A response is buffered whole exactly when its length fits the `int` indices. -/
theorem buffered_iff (r : HttpResponse) : r.Buffered ↔ r.bytes.length + 8 < 2147483648 := by
  have start : (IoBuffer.new IoBuffer.kInitialSize).writerIndex = 8 := rfl
  constructor
  · rintro ⟨out, run, whole⟩
    obtain ⟨reader, writer⟩ := IoBuffer.appendAll_bounds r.pieces rfl (by rw [start]; decide) run
    have width : out.contents.length ≤ out.readableBytes.toNat := List.length_take_le _ _
    rw [whole] at width
    simp only [IoBuffer.readableBytes, reader, IoBuffer.kCheapPrepend] at width
    omega
  · intro small
    obtain ⟨out, run, _, contents⟩ := IoBuffer.appendAll_written r.pieces
      (IoBuffer.new_written IoBuffer.kInitialSize (by decide))
      (by rw [start]; simp only [bytes] at small; omega)
    exact ⟨out, run, by rw [contents, IoBuffer.new_contents, List.nil_append, bytes]⟩

theorem bytes_ne_nil (r : HttpResponse) : r.bytes ≠ [] := by
  simp [bytes, pieces, crlf]

end HttpResponse
end Yamq
