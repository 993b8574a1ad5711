import MediaRelay.Roster
import MediaRelay.Stream.Failure
import MediaRelay.Stream.Ring
import MediaRelay.Stream.Sizing

/-! # Shared sources

A source keeps the latest part of one stream in a ring. One producer writes at the high end; any
number of cursors read, each at its own pace. Offsets are absolute positions in the stream. Bytes
below `floor` are gone; they are evicted in whole blocks once every cursor has passed them, and
never before the ring has first been three quarters full, so that late readers can still join.

A write happens in two steps: the producer reserves the cells at the high end, waits for its input
with the source free for others, and then appends what it got.
-/
namespace MediaRelay

abbrev CursorId := Nat

/-- `offset` is the next byte to deliver; the `available` bytes from there on are handed out but not
yet committed. -/
structure Cursor where
  offset : Nat := 0
  available : Nat := 0
deriving DecidableEq

/-- What one read of an input comes to. No bytes at all mean the end of the input. -/
inductive Reading where
  | bytes (data : ByteArray)
  | interrupted
  | failed (cause : InputFailure)
  /-- The input broke down in the middle of the read. -/
  | crashed
  /-- Nothing to hand out yet. -/
  | pending

inductive Fetch where
  /-- Nothing past the cursor so far. -/
  | wait
  /-- Nothing past the cursor, and nothing will come. -/
  | done
  | span (data : ByteArray)

structure Source where
  sizing : Sizing
  ring : Ring := {}
  /-- The lowest offset that is resident. -/
  floor : Nat := 0
  used : Nat := 0
  cursors : Roster CursorId Cursor := .empty
  nextCursor : CursorId := 1
  ended : Bool := false
  /-- The cells reserved by the producer while its read is under way. -/
  reserved : Option Span := none

namespace Source

def start (z : Sizing) : Source := { sizing := z.clamped }

def capacity (s : Source) : Nat := s.sizing.capacity

/-- One past the highest resident offset. -/
def high (s : Source) : Nat := s.floor + s.used

def slowest? (s : Source) : Option Nat := (s.cursors.values.map Cursor.offset).min?

def isAttachable (s : Source) : Bool := s.floor = 0

def position? (s : Source) (id : CursorId) : Option Nat := (s.cursors.get? id).map Cursor.offset

/-- Raises the floor to the slowest cursor, in whole blocks, if that frees any space. While the
floor is 0 it stays there until the ring is three quarters full. -/
def evict? (s : Source) : Option Source :=
  match s.slowest? with
  | none => none
  | some slowest =>
    if slowest < s.floor + s.sizing.blockSize then none
    else if s.floor = 0 ∧ s.used < s.capacity * 3 / 4 then none
    else
      let freed := (slowest - s.floor) / s.sizing.blockSize * s.sizing.blockSize
      some { s with floor := s.floor + freed, used := s.used - freed }

def evict (s : Source) : Source := s.evict?.getD s

/-- A new cursor at the start of the stream, as long as the start is resident. -/
def attach? (s : Source) : Option (CursorId × Source) :=
  if s.floor = 0 then
    some (s.nextCursor,
      { s with cursors := s.cursors.put s.nextCursor {}, nextCursor := s.nextCursor + 1 })
  else none

def detach (s : Source) (id : CursorId) : Source :=
  if s.cursors.contains id then { s with cursors := s.cursors.erase id }.evict else s

/-- Counts the span that a cursor was handed as read. -/
def commit (s : Source) (id : CursorId) : Source :=
  { s with cursors := s.cursors.modify id fun c => ⟨c.offset + c.available, 0⟩ }

def release (s : Source) (id : CursorId) : Source := (s.commit id).evict

/-- The cells of the bytes from an offset on: at most a block, and never round the end of the
ring. -/
def readSpan (s : Source) (offset : Nat) : Span :=
  let start := offset % s.capacity
  ⟨start, min (min (s.capacity - start) (s.high - offset)) s.sizing.blockSize⟩

def fetch (s : Source) (id : CursorId) : Fetch × Source :=
  match s.cursors.get? id with
  | none => (.done, s)
  | some c =>
    if c.offset < s.high then
      let span := s.readSpan c.offset
      (.span (s.ring.read span),
        { s with cursors := s.cursors.modify id fun c => { c with available := span.length } })
    else if s.ended then (.done, s)
    else (.wait, s)

def next (s : Source) (id : CursorId) : Fetch × Source := (s.release id).fetch id

def hasRoom (s : Source) : Bool := s.used + s.sizing.blockSize ≤ s.capacity

/-- Where the next write goes, and how long it may be. -/
def writeSpan (s : Source) : Span :=
  let start := s.high % s.capacity
  ⟨start, min s.sizing.blockSize (s.capacity - start)⟩

/-- Reserves the cells for the next read of the input, once there is room for it. -/
def reserve? (s : Source) : Option (Span × Source) :=
  if s.ended = false ∧ s.reserved = none ∧ s.hasRoom then
    some (s.writeSpan, { s with reserved := some s.writeSpan })
  else none

def finish (s : Source) : Source := { s with ended := true, reserved := none }

def append (s : Source) (span : Span) (data : ByteArray) : Source :=
  { s with ring := s.ring.write span.start data, used := s.used + data.size, reserved := none }

/-- Takes in what the read under way came to. Whatever is no proper run of bytes ends the stream,
except for an interruption, after which the read is tried again. -/
def receive (s : Source) (r : Reading) : Source :=
  match s.reserved, r with
  | some span, .bytes data =>
    if data.size = 0 ∨ span.length < data.size then s.finish else s.append span data
  | some _, .failed _ => s.finish
  | some _, .crashed => s.finish
  | _, _ => s

end Source
end MediaRelay
