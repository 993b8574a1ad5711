import MediaRelay.Protocol.Identity
import MediaRelay.Text.CommaList

/-! # The catalog of declared protocols

Source protocols are declared in three lists, one for each kind of content; a fourth list holds the
protocols that are accepted as a sink. Entries keep the order of their declaration.
-/
namespace MediaRelay

structure Catalog where
  audio : List Protocol := []
  video : List Protocol := []
  image : List Protocol := []
  sinks : List Protocol := []

namespace Catalog

def empty : Catalog := {}

def addAudio (c : Catalog) (profile format suffix : String) (a : AudioShape) (h : EncoderHints) :
    Catalog :=
  { c with audio := c.audio ++ [(Protocol.audio format profile suffix a).withEncoder h] }

def addVideo (c : Catalog) (profile format suffix : String) (a : AudioShape) (v : VideoShape)
    (h : EncoderHints) : Catalog :=
  { c with video := c.video ++ [(Protocol.video format profile suffix a v).withEncoder h] }

def addImage (c : Catalog) (profile format suffix : String) (width height : Nat) : Catalog :=
  { c with image := c.image ++ [Protocol.image format profile suffix width height] }

def addSink (c : Catalog) (p : Protocol) : Catalog := { c with sinks := c.sinks ++ [p] }

/-- All source protocols: audio, then video, then images. -/
def sources (c : Catalog) : List Protocol := c.audio ++ c.video ++ c.image

def size (c : Catalog) : Nat := c.sources.length

def sourceInfo (c : Catalog) : String := commaJoined (c.sources.map Protocol.briefIdentity)

def sinkInfo (c : Catalog) : String := commaJoined (c.sinks.map Protocol.briefIdentity)

end Catalog
end MediaRelay
