import MediaRelay.Catalog.Basic
import MediaRelay.Catalog.Penalty
import MediaRelay.Connection.Failure

/-! # Best matches for a request

A request names a kind of content and the shape it should have. Its matches are the entries of that
kind, best first, with one entry for each profile: entries are ranked by penalty, equal ones in the
order of their declaration, and only the first of a profile stays.
-/
namespace MediaRelay

/-- The kind of content and the shape that a request asks for. -/
inductive Wanted where
  | audio (channels : Nat)
  /-- The width is on screen, the rate in frames per second. -/
  | video (channels width : Nat) (rate : Float32)
  | image (width height : Nat)

namespace Wanted

def entries (w : Wanted) (c : Catalog) : List Protocol :=
  match w with
  | audio _ => c.audio
  | video _ _ _ => c.video
  | image _ _ => c.image

def penalty (w : Wanted) (p : Protocol) : Nat :=
  match w with
  | audio channels => Penalty.channels p.channels channels
  | video channels width rate =>
    Penalty.channels p.channels channels
      + Penalty.sizeClass Penalty.videoWidths Penalty.videoSmall p.displayWidth width
      + Penalty.frameRate p.frameRate rate
  | image width height =>
    Penalty.sizeClass Penalty.imageWidths Penalty.thumbnail p.width width
      + Penalty.sizeClass Penalty.imageHeights Penalty.thumbnail p.height height

/-- What is granted for a chosen entry: never more channels than were asked for. -/
def grant (w : Wanted) (p : Protocol) : Protocol :=
  match w with
  | audio channels => { p with channels := min p.channels channels }
  | video channels _ _ => { p with channels := min p.channels channels }
  | image _ _ => p

end Wanted

namespace Ranking

/-- Before the first entry that is no better. -/
def place (cost : Protocol → Nat) (p : Protocol) : List Protocol → List Protocol
  | [] => [p]
  | q :: rest => if cost p ≤ cost q then p :: q :: rest else q :: place cost p rest

/-- Lowest cost first; entries of equal cost keep their order. -/
def byCost (cost : Protocol → Nat) (entries : List Protocol) : List Protocol :=
  entries.foldr (place cost) []

def firstPerProfile : List Protocol → List Protocol
  | [] => []
  | p :: rest => p :: (firstPerProfile rest).filter fun q => q.profile ≠ p.profile

end Ranking

namespace Catalog

/-- The matches for a request, best first, one for each profile. -/
def matchesFor (c : Catalog) (w : Wanted) : List Protocol :=
  (Ranking.firstPerProfile (Ranking.byCost w.penalty (w.entries c))).map w.grant

/-- The match that has the given profile, or the unset protocol. -/
def lookup (c : Catalog) (profile : String) (w : Wanted) : Protocol :=
  ((c.matchesFor w).find? fun p => p.profile = profile).getD Protocol.unset

/-- As `lookup`, but a miss is told apart. A profile without a name is never found. -/
def require? (c : Catalog) (profile : String) (w : Wanted) : Option Protocol :=
  let p := c.lookup profile w
  if p.isValid then some p else none

/-- As `require?`, with the reason for a miss. -/
def require (c : Catalog) (profile : String) (w : Wanted) : Except Failure Protocol :=
  match c.require? profile w with
  | some p => .ok p
  | none => .error (.unsupportedProfile profile)

end Catalog
end MediaRelay
