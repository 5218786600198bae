import MoneroRandomXMiner.StreamLines
import MoneroRandomXMiner.HexText

/-!
# The receive loop

The loop of `start_receive_loop` appends what `recv` delivers to its buffer and
hands every non-empty line to `handle_message`. A failed `recv` is told from
the end of the connection by `errno`, which only a failed call sets.
-/

namespace ReceiveLoop

open HexText StreamLines

/-- The values of `errno` that the loop tells apart. -/
inductive Errno where
  | eagain
  | ewouldblock
  | other
  deriving DecidableEq

/-- What one call of `recv` does: it returns a positive count with that many
bytes, -1 with `errno` set, or 0. -/
inductive Recv where
  | data (chunk : Text)
  | failed (errno : Errno)
  | closed

/-- `left` holds once the receive thread has left its loop; `handled` are the
arguments of the calls of `handle_message`, in order. -/
structure Receiver where
  running : Bool
  connected : Bool
  left : Bool
  errno : Errno
  buffer : Text
  handled : List Text

def newline : UInt8 := 10

/-- `m_buffer.find('\n')` -/
def findNewline (buffer : Text) : Option Nat := buffer.findIdx? (· == newline)

def handleLine (line : Text) (handled : List Text) : List Text :=
  if line = [] then handled else handled ++ [line]

theorem drop_shorter {buffer : Text} {pos : Nat} (found : findNewline buffer = some pos) :
    (buffer.drop (pos + 1)).length < buffer.length := by
  have inside := (List.findIdx?_eq_some_iff_findIdx_eq.mp found).1
  rw [List.length_drop]
  omega

/-- `while ((pos = m_buffer.find('\n')) != npos)` -/
def extractLines (buffer : Text) (handled : List Text) : Text × List Text :=
  match found : findNewline buffer with
  | none => (buffer, handled)
  | some pos => extractLines (buffer.drop (pos + 1)) (handleLine (buffer.take pos) handled)
termination_by buffer.length
decreasing_by exact drop_shorter found

/-- The two exits of the test `bytes_received <= 0`. -/
def noData (r : Receiver) : Receiver :=
  if r.errno = .eagain ∨ r.errno = .ewouldblock then r
  else { r with connected := false, left := true }

/-- One iteration of the loop. -/
def iterate (r : Receiver) (outcome : Recv) : Receiver :=
  if r.left then r
  else if r.running then
    match outcome with
    | .data chunk =>
      let extracted := extractLines (r.buffer ++ chunk) r.handled
      { r with buffer := extracted.1, handled := extracted.2 }
    | .failed errno => noData { r with errno := errno }
    | .closed => noData r
  else { r with left := true }

def receiveAll (r : Receiver) (outcomes : List Recv) : Receiver := outcomes.foldl iterate r

/-- The state in which the receive thread is started. -/
def Receiver.initial (errno : Errno) : Receiver := ⟨true, true, false, errno, [], []⟩

/-- What the loop should hand on. -/
def messages (stream : Text) : List Text := (completeLines newline stream).filter (· ≠ [])

theorem findNewline_none {buffer : Text} (none : findNewline buffer = none) :
    newline ∉ buffer := by
  intro hmem
  have hfalse := List.findIdx?_eq_none_iff.mp none newline hmem
  simp at hfalse

theorem findNewline_some {buffer : Text} {pos : Nat} (found : findNewline buffer = some pos) :
    newline ∉ buffer.take pos ∧
      buffer = buffer.take pos ++ newline :: buffer.drop (pos + 1) := by
  obtain ⟨inside, here, before⟩ := List.findIdx?_eq_some_iff_getElem.mp found
  constructor
  · intro hmem
    obtain ⟨i, hi, heq⟩ := List.mem_take_iff_getElem.mp hmem
    have hlt : i < pos := by omega
    exact before i hlt (by simpa using heq)
  · have hnewline : buffer[pos] = newline := by simpa using here
    rw [← hnewline, List.getElem_cons_drop, List.take_append_drop]

theorem handleLine_filter (line : Text) (handled : List Text) (rest : List Text) :
    handleLine line handled ++ rest.filter (· ≠ []) =
      handled ++ (line :: rest).filter (· ≠ []) := by
  by_cases empty : line = []
  · simp [handleLine, empty]
  · simp [handleLine, empty]

/-- The extraction loop hands on all lines of the buffer and keeps the rest. -/
theorem extractLines_eq (buffer : Text) (handled : List Text) :
    extractLines buffer handled = (unfinished newline buffer, handled ++ messages buffer) := by
  induction buffer, handled using extractLines.induct with
  | case1 buffer handled none =>
    have free := findNewline_none none
    rw [extractLines]
    split
    · simp [messages, completeLines_of_not_mem free, unfinished_of_not_mem free]
    · rename_i pos found
      rw [none] at found
      cases found
  | case2 buffer handled pos found ih =>
    obtain ⟨free, hsplit⟩ := findNewline_some found
    rw [extractLines]
    split
    · rename_i none
      rw [none] at found
      cases found
    · rename_i pos' found'
      obtain rfl := Option.some.inj (found.symm.trans found')
      rw [ih]
      conv_rhs => rw [hsplit]
      simp only [messages, completeLines_line free, unfinished_line free, handleLine_filter]

def Recv.IsTimeout : Recv → Prop
  | .failed errno => errno = .eagain ∨ errno = .ewouldblock
  | _ => False

/-- `recv` is given room for 65535 bytes, and data means at least one. -/
def Recv.IsChunk : Recv → Prop
  | .data chunk => chunk ≠ [] ∧ chunk.length ≤ 65535
  | _ => False

def Recv.bytes : Recv → Text
  | .data chunk => chunk
  | _ => []

/-- The outcomes deliver the stream in chunks, with timeouts in between. -/
structure Cutting (stream : Text) (outcomes : List Recv) : Prop where
  pieces : ∀ r ∈ outcomes, r.IsChunk ∨ r.IsTimeout
  whole : outcomes.flatMap Recv.bytes = stream

/-- The invariant of the loop: all lines so far are handled, the rest is buffered. -/
structure Framed (stream : Text) (r : Receiver) : Prop where
  active : r.running = true ∧ r.left = false
  handled : r.handled = messages stream
  buffered : r.buffer = unfinished newline stream

theorem framed_initial (errno : Errno) : Framed [] (Receiver.initial errno) :=
  ⟨⟨rfl, rfl⟩, rfl, rfl⟩

theorem Framed.data {stream : Text} {r : Receiver} (framed : Framed stream r) (chunk : Text) :
    Framed (stream ++ chunk) (iterate r (.data chunk)) := by
  obtain ⟨hlines, hrest⟩ := lines_append newline stream chunk
  have hnext : iterate r (.data chunk) =
      { r with
        buffer := unfinished newline (r.buffer ++ chunk)
        handled := r.handled ++ messages (r.buffer ++ chunk) } := by
    simp [iterate, framed.active, extractLines_eq]
  rw [hnext]
  refine ⟨framed.active, ?_, ?_⟩
  · simp only [framed.handled, framed.buffered, messages, hlines, List.filter_append]
  · simp only [framed.buffered, hrest]

theorem Framed.timeout {stream : Text} {r : Receiver} (framed : Framed stream r) {errno : Errno}
    (timeout : errno = .eagain ∨ errno = .ewouldblock) :
    Framed stream (iterate r (.failed errno)) := by
  have hnext : iterate r (.failed errno) = { r with errno := errno } := by
    simp [iterate, framed.active, noData, timeout]
  rw [hnext]
  exact ⟨framed.active, framed.handled, framed.buffered⟩

theorem framed_receiveAll {stream : Text} {r : Receiver} (framed : Framed stream r)
    {outcomes : List Recv} (pieces : ∀ o ∈ outcomes, o.IsChunk ∨ o.IsTimeout) :
    Framed (stream ++ outcomes.flatMap Recv.bytes) (receiveAll r outcomes) := by
  induction outcomes generalizing stream r with
  | nil => simpa [receiveAll] using framed
  | cons o outcomes ih =>
    have hrest : ∀ o ∈ outcomes, o.IsChunk ∨ o.IsTimeout :=
      fun p hp => pieces p (List.mem_cons_of_mem o hp)
    rw [receiveAll, List.foldl_cons, List.flatMap_cons]
    rcases pieces o List.mem_cons_self with isChunk | timeout
    · cases o with
      | data chunk =>
        rw [← List.append_assoc]
        exact ih (framed.data chunk) hrest
      | _ => exact isChunk.elim
    · cases o with
      | failed errno => exact ih (framed.timeout timeout) hrest
      | _ => exact timeout.elim

/-- Whatever the cutting of a stream, the calls are its non-empty lines in
order and the buffer is what follows the last newline. -/
theorem framing {stream : Text} {outcomes : List Recv} (errno : Errno)
    (cutting : Cutting stream outcomes) :
    ((receiveAll (Receiver.initial errno) outcomes).handled = messages stream ∧
      (receiveAll (Receiver.initial errno) outcomes).buffer = unfinished newline stream) ∧
      ∀ errno' outcomes', Cutting stream outcomes' →
        (receiveAll (Receiver.initial errno') outcomes').handled =
          (receiveAll (Receiver.initial errno) outcomes).handled := by
  have general : ∀ errno outcomes, Cutting stream outcomes →
      Framed stream (receiveAll (Receiver.initial errno) outcomes) := by
    intro errno outcomes cutting
    have framed := framed_receiveAll (framed_initial errno) cutting.pieces
    rw [cutting.whole, List.nil_append] at framed
    exact framed
  have framed := general errno outcomes cutting
  refine ⟨⟨framed.handled, framed.buffered⟩, ?_⟩
  intro errno' outcomes' cutting'
  exact (general errno' outcomes' cutting').handled.trans framed.handled.symm

/-- Two messages and an empty line, cut inside the first one, with a timeout. -/
theorem framing_cutInside :
    ((receiveAll (Receiver.initial .other)
        [.data [123], .failed .eagain, .data [125, 10, 10], .data [0, 10, 65]]).handled =
        messages [123, 125, 10, 10, 0, 10, 65] ∧
      (receiveAll (Receiver.initial .other)
        [.data [123], .failed .eagain, .data [125, 10, 10], .data [0, 10, 65]]).buffer =
        unfinished newline [123, 125, 10, 10, 0, 10, 65]) ∧
      ∀ errno' outcomes', Cutting [123, 125, 10, 10, 0, 10, 65] outcomes' →
        (receiveAll (Receiver.initial errno') outcomes').handled =
          (receiveAll (Receiver.initial .other)
            [.data [123], .failed .eagain, .data [125, 10, 10], .data [0, 10, 65]]).handled :=
  framing .other ⟨by simp [Recv.IsChunk, Recv.IsTimeout], rfl⟩

end ReceiveLoop
