import MediaRelay.Stream.Input

/-! # Feeds

A feed is a source together with the input that its producer reads. The producer reserves room,
reads, and appends, again and again. It comes to rest when the stream has ended, when there is no
room for a block, or when it waits for a gated input.
-/
namespace MediaRelay

structure Feed where
  source : Source
  input : Input := {}
  /-- The buffer lengths of the reads issued since they were last asked for, the latest first. -/
  asked : List Nat := []

namespace Feed

def start (z : Sizing) (i : Input) : Feed := { source := .start z, input := i }

/-- The next step of the producer: to issue a read, or to take in what the read under way has come
to. An interrupted read is issued again with the same buffer. -/
def step? (f : Feed) : Option Feed :=
  match f.source.reserved with
  | none =>
    match f.source.reserve? with
    | none => none
    | some (span, source) => some { f with source := source, asked := span.length :: f.asked }
  | some span =>
    match f.input.read span.length with
    | (.pending, _) => none
    | (.interrupted, input) => some { f with input := input, asked := span.length :: f.asked }
    | (reading, input) => some { f with source := f.source.receive reading, input := input }

def steps : Nat → Feed → Feed
  | 0, f => f
  | n + 1, f =>
    match f.step? with
    | none => f
    | some g => steps n g

/-- Every item can be used up once, and every read that brings data takes some of the room. -/
def budget (f : Feed) : Nat :=
  2 * (f.input.items.length + (f.source.capacity - f.source.used)) + 2

def settle (f : Feed) : Feed := steps f.budget f

end Feed
end MediaRelay
