import MediaRelay.Protocol.Identity

/-! # Requests and their keys

A request asks for a resource in a granted protocol at a serving endpoint. Two requests may share a
running source only if they have the same key.
-/
namespace MediaRelay

structure Request where
  protocol : Protocol
  resource : String
  endpoint : String
  options : String

structure OutputKey where
  /-- The full identity of the granted protocol. -/
  protocol : String
  resource : String
  endpoint : String
  options : String
deriving DecidableEq

def Request.key (r : Request) : OutputKey :=
  ⟨r.protocol.identity, r.resource, r.endpoint, r.options⟩

def OutputKey.render (k : OutputKey) : String :=
  k.resource ++ " [" ++ k.protocol ++ "] via " ++ k.endpoint
    ++ (if k.options = "" then "" else " (" ++ k.options ++ ")")

/-- For each key the index of the first one that equals it. -/
def firstOccurrences (keys : List OutputKey) : List Nat := keys.map fun k => keys.idxOf k

def distinctCount (keys : List OutputKey) : Nat := keys.eraseDups.length

end MediaRelay
