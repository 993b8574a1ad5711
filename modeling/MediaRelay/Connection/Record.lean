import MediaRelay.Connection.Failure

/-! # Records of connections -/
namespace MediaRelay

abbrev SourceId := Nat

inductive Direction where
  | input
  | output
deriving DecidableEq

def Direction.render : Direction → String
  | input => "Input"
  | output => "Output"

def Direction.all : List Direction := [input, output]

inductive Status where
  | ok
  | contentFormatMismatch
  | insufficientBandwidth
  | unreliableChannel
  | unknown
deriving DecidableEq

def Status.render : Status → String
  | ok => "OK"
  | contentFormatMismatch => "ContentFormatMismatch"
  | insufficientBandwidth => "InsufficientBandwidth"
  | unreliableChannel => "UnreliableChannel"
  | unknown => "Unknown"

def Status.all : List Status :=
  [ok, contentFormatMismatch, insufficientBandwidth, unreliableChannel, unknown]

/-- An active connection. The number -1 stands for a service or a peer that is not there. -/
structure Connection where
  id : ConnectionId
  renderingControl : Int := -1
  transport : Int := -1
  protocolInfo : String
  peerManager : String := ""
  peerId : Int := -1
  direction : Direction := .output
  status : Status := .ok
  key : OutputKey
  source : SourceId

namespace Connection

def ofRequest (id : ConnectionId) (r : Request) (source : SourceId) : Connection :=
  { id := id
    protocolInfo := "http-get:*:" ++ r.protocol.contentFormat ++ ":*"
    key := r.key
    source := source }

def serves (c : Connection) (key : OutputKey) : Bool := c.key = key

end Connection
end MediaRelay
