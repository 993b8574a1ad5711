import MediaRelay.Stream.Source

/-! # Readers

A reader is one consumer's view of a source: a cursor, and the span that the cursor was last handed
with how much of it is consumed. Every operation either goes through or, where it would have to
wait for the producer, yields nothing.
-/
namespace MediaRelay

structure Reader where
  cursor : CursorId
  span : ByteArray := ByteArray.empty
  /-- The bytes of `span` that are consumed. -/
  taken : Nat := 0

namespace Reader

def rest (r : Reader) : ByteArray := r.span.extract r.taken r.span.size

def pending (r : Reader) : Nat := r.span.size - r.taken

/-- Makes sure that there is something to consume, except at the end of the stream. -/
def fill? (r : Reader) (s : Source) : Option (Reader × Source) :=
  if r.pending = 0 then
    match s.next r.cursor with
    | (.wait, _) => none
    | (.done, s) => some (r, s)
    | (.span data, s) => some ({ r with span := data, taken := 0 }, s)
  else some (r, s)

/-- Consumes up to `n` pending bytes. A span that is used up is released. -/
def consume (r : Reader) (n : Nat) (s : Source) : Reader × Source :=
  let r := { r with taken := r.taken + min n r.pending }
  (r, if r.pending = 0 then s.release r.cursor else s)

/-- Reads into a buffer of `n` bytes: what is pending, as far as it fits. -/
def read? (r : Reader) (n : Nat) (s : Source) : Option (ByteArray × Reader × Source) :=
  match r.fill? s with
  | none => none
  | some (r, s) =>
    let size := min n r.pending
    let data := r.span.extract r.taken (r.taken + size)
    some (data, r.consume size s)

/-- The whole rest of the current span, or else of the next one; no bytes at the end of the
stream. -/
def chunk? (r : Reader) (s : Source) : Option (Option ByteArray × Reader × Source) :=
  match r.fill? s with
  | none => none
  | some (r, s) =>
    if r.pending = 0 then some (none, r, s)
    else some (some r.rest, { r with taken := r.span.size }, s.release r.cursor)

end Reader
end MediaRelay
