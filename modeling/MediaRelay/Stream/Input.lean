import MediaRelay.Stream.Source
import MediaRelay.Total

/-! # Inputs

An input is what a producer reads from: a list of items that are handed out one after another. A
gated input that has run out of items makes its reader wait for more; any other one is at its end.

All reads go into one buffer, from its front on, and nobody clears it in between. A read that claims
bytes without having written them delivers what earlier reads have left there.
-/
namespace MediaRelay

inductive InputItem where
  /-- The bytes of `data` from `taken` on; it stays in front until all are handed out. -/
  | bytes (data : ByteArray) (taken : Nat)
  | fill (byte : UInt8)
  | failure (cause : InputFailure)
  | crash
  /-- Writes nothing, and claims to have read `excess` bytes more than were asked for. -/
  | overrun (excess : Nat)

structure Input where
  items : List InputItem := []
  gated : Bool := false
  /-- What the reads so far have left in the buffer; the bytes behind are still zero. -/
  buffer : ByteArray := ByteArray.empty

/-- `n` copies of a byte, built by doubling. -/
def repeated (byte : UInt8) (n : Nat) : ByteArray :=
  if n = 0 then ByteArray.empty
  else
    let half := repeated byte (n / 2)
    if n % 2 = 0 then half ++ half else (half ++ half).push byte
termination_by n

/-- The bytes `(i * factor + first) % 256` for `i` below `length`. -/
def patterned (length factor first : Nat) : ByteArray :=
  (List.range length).foldl (fun bytes i => bytes.push (UInt8.ofNat (i * factor + first)))
    ByteArray.empty

namespace Input

/-- Writes bytes to the front of the buffer; those behind stay. -/
def write (i : Input) (data : ByteArray) : Input :=
  { i with buffer := data ++ i.buffer.extract data.size i.buffer.size }

def leftover (i : Input) (length : Nat) : ByteArray :=
  i.buffer.extract 0 length ++ repeated 0 (length - i.buffer.size)

/-- One read of up to the given length. A claim of more than that breaks it down. -/
def read (i : Input) (length : Nat) : Reading × Input :=
  match i.items with
  | [] => if i.gated then (.pending, i) else (.bytes ByteArray.empty, i)
  | .bytes data taken :: rest =>
    let upTo := min (taken + length) data.size
    let part := data.extract taken upTo
    let items := if upTo < data.size then .bytes data upTo :: rest else rest
    (.bytes part, { i.write part with items := items })
  | .fill byte :: _ =>
    let part := repeated byte length
    (.bytes part, i.write part)
  | .failure cause :: rest =>
    (if cause.isInterruption then .interrupted else .failed cause, { i with items := rest })
  | .crash :: rest => (.crashed, { i with items := rest })
  | .overrun excess :: rest =>
    (if excess = 0 then .bytes (i.leftover length) else .crashed, { i with items := rest })

/-- The most bytes that an item brings if no read is longer than `longest`; one that never ends
counts for nothing. -/
def yieldOf (longest : Nat) : InputItem → Nat
  | .bytes data taken => data.size - taken
  | .overrun _ => longest
  | _ => 0

def length (i : Input) (longest : Nat) : Nat := total (yieldOf longest) i.items

def feed (i : Input) (more : List InputItem) : Input := { i with items := i.items ++ more }

def close (i : Input) : Input := { i with gated := false }

end Input
end MediaRelay
