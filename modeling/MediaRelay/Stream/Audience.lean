import MediaRelay.Stream.Feed
import MediaRelay.Stream.Reader

/-! # Audiences

Several readers that joined a source before anything was read, each of them reading to the end of
the stream. They take turns, and the producer runs as far as it can after every turn; any other
order of turns comes to the same end.
-/
namespace MediaRelay

/-- One of the readers, with the buffer length of its reads (or none, if it takes whole spans), what
it has got, and whether it has met the end. -/
structure Member where
  reader : Reader
  buffer : Option Nat
  got : ByteArray := ByteArray.empty
  done : Bool := false

structure Audience where
  feed : Feed
  members : List Member := []

namespace Member

/-- One read, if it can go through: the bytes, none of them at the end of the stream. -/
def take? (m : Member) (s : Source) : Option (ByteArray × Reader × Source) :=
  match m.buffer with
  | some n => m.reader.read? n s
  | none => (m.reader.chunk? s).map fun (data, r, s) => (data.getD ByteArray.empty, r, s)

def turn (m : Member) (f : Feed) : Member × Feed :=
  if m.done then (m, f)
  else
    match m.take? f.source with
    | none => (m, f)
    | some (data, r, s) =>
      ({ m with reader := r, got := m.got ++ data, done := data.size = 0 },
        { f with source := s }.settle)

def round : List Member → Feed → List Member × Feed
  | [], f => ([], f)
  | m :: rest, f =>
    let (m, f) := m.turn f
    let (rest, f) := round rest f
    (m :: rest, f)

end Member

namespace Audience

/-- One reader for each given buffer length joins a source that has not been read from. -/
def gather (z : Sizing) (i : Input) (buffers : List (Option Nat)) : Audience :=
  buffers.foldl
    (fun a buffer =>
      match a.feed.source.attach? with
      | none => a
      | some (id, s) =>
        { feed := { a.feed with source := s }
          members := a.members ++ [{ reader := { cursor := id }, buffer := buffer }] })
    { feed := .start z i }

def rounds : Nat → Audience → Audience
  | 0, a => a
  | n + 1, a =>
    if a.members.all Member.done then a
    else
      let (members, feed) := Member.round a.members a.feed
      rounds n { feed := feed, members := members }

/-- In every round the slowest reader gets a byte or meets the end, so a stream of finite length
is read by all within so many rounds. -/
def hear (a : Audience) : Audience :=
  rounds (a.feed.input.length a.feed.source.sizing.blockSize + 2) { a with feed := a.feed.settle }

end Audience
end MediaRelay
