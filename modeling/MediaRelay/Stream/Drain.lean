import MediaRelay.Stream.Feed
import MediaRelay.Stream.Reader

/-! # Reading in a row

A reader reads with one buffer again and again, with the producer at rest between two reads.
-/
namespace MediaRelay

inductive DrainEnd where
  /-- As many reads were done as were asked for. -/
  | enough
  | wouldBlock
  | endOfStream

structure Drained where
  reads : List ByteArray
  ending : DrainEnd

def Reader.drain (buffer : Nat) : Nat → Reader → Feed → Drained × Reader × Feed
  | 0, r, f => (⟨[], .enough⟩, r, f)
  | n + 1, r, f =>
    match r.read? buffer f.source with
    | none => (⟨[], .wouldBlock⟩, r, f)
    | some (data, r, s) =>
      if data.size = 0 then (⟨[], .endOfStream⟩, r, { f with source := s })
      else
        let (d, r, f) := Reader.drain buffer n r { f with source := s }.settle
        (⟨data :: d.reads, d.ending⟩, r, f)

end MediaRelay
