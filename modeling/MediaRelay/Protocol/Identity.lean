import MediaRelay.Protocol.Basic

/-! # The identity of a protocol as text

An identity has four fields set apart by colons: transport, network, content format, and either a
star where no profile is declared or the features. The brief features name the profile alone; the
full ones are what two requests have to agree on to share a stream.
-/
namespace MediaRelay.Protocol

def digit (b : Bool) : String := if b then "1" else "0"

def profileFeature (p : Protocol) : String := "DLNA.ORG_PN=" ++ p.profile

/-- Only images say how they can be played and sought in. -/
def imageFeatures (p : Protocol) : String :=
  if p.isImage then
    "DLNA.ORG_PS=" ++ digit p.playSpeed ++ ";DLNA.ORG_OP=" ++ digit p.timeSeek
      ++ digit p.rangeSeek ++ ";"
  else ""

def flagFeature (p : Protocol) : String :=
  if p.flags = "" then "" else ";DLNA.ORG_FLAGS=" ++ p.flags ++ Terms.reservedFlags

def features (p : Protocol) : String :=
  (if p.profile = "" then "" else p.profileFeature ++ ";") ++ p.imageFeatures
    ++ ("DLNA.ORG_CI=" ++ digit p.converted) ++ p.flagFeature

def identityWith (p : Protocol) (lastField : String) : String :=
  p.networkProtocol ++ ":" ++ p.network ++ ":" ++ p.contentFormat ++ ":"
    ++ (if p.profile = "" then "*" else lastField)

def briefIdentity (p : Protocol) : String := p.identityWith p.profileFeature

def identity (p : Protocol) : String := p.identityWith p.features

end MediaRelay.Protocol
