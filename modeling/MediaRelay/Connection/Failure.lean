import MediaRelay.Connection.Key
import MediaRelay.Stream.Failure

/-! # Why a connection cannot be had -/
namespace MediaRelay

/-- Connections are numbered as the control point sees them, by signed integers. -/
abbrev ConnectionId := Int

inductive AttachFailure where
  | noMatch (key : OutputKey)
  /-- The matching source of this connection has already evicted data. -/
  | windowClosed (id : ConnectionId)

inductive Failure where
  | input (cause : InputFailure)
  | attach (cause : AttachFailure)
  | unsupportedProfile (profile : String)
  | schedulerStopped

def AttachFailure.message : AttachFailure → String
  | noMatch key => "No matching connection: " ++ key.render
  | windowClosed id => "De-duplication window closed for connection " ++ toString id

def Failure.message : Failure → String
  | input cause => "I/O error: " ++ cause.message
  | attach cause => cause.message
  | unsupportedProfile profile => "Unsupported profile: " ++ profile
  | schedulerStopped => "Scheduler stopped"

end MediaRelay
