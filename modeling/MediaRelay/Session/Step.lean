import MediaRelay.Relay.Calls
import MediaRelay.Service.ConnectionManager
import MediaRelay.Stream.Drain

/-! # Steps of a session

A session is a list of steps taken on one relay. Listeners go by the names that the steps give them,
sources by their number, and subscriptions by their tags.
-/
namespace MediaRelay.Session

/-- A protocol, or how to look one up in the manager's catalog. -/
inductive ProtocolChoice where
  | given (p : Protocol)
  | find (profile : String) (w : Wanted)

structure Ask where
  protocol : ProtocolChoice
  resource : String
  endpoint : String
  options : String

inductive Step where
  | source (z : Sizing) (items : List InputItem) (gated : Bool)
  | openReader (name : String) (z : Sizing) (items : List InputItem) (gated : Bool)
  | attach (source : String) (name : String)
  | attachBeside (other : String) (name : String)
  | feed (source : String) (items : List InputItem)
  | fill (name : String)
  | consume (name : String) (n : Nat)
  | read (name : String) (n : Nat)
  | chunk (name : String)
  | drain (name : String) (n most : Nat)
  | dropReader (name : String)
  | dropSource (source : String)
  | onClose (source : String) (tag : String)
  | onDetach (source : String) (tag : String)
  | run (most : Option Nat)
  | advance (delay : Nat)
  | stop
  | manager (c : Settings) (catalog : Catalog)
  | openConnection (name : String) (ask : Ask) (start : Except InputFailure (List InputItem))
  | tryAttach (name : String) (ask : Ask)
  | add (name : String) (ask : Ask)
  | remove (id : ConnectionId)
  | close
  | ids
  | count
  | info (id : ConnectionId)
  | infos
  | serving (q : Request)
  | protocolInfo
  | subscribe (s : Subscriber)
  | unsubscribe (tag : String)
  | properties
  | describe
  | dropManager

/-- Steps that only let the thread of the manager go on. -/
def Step.isScheduling : Step → Bool
  | .run _ => true
  | .advance _ => true
  | _ => false

structure ConnectionView where
  connection : Connection
  alive : Bool

inductive Answer where
  | ok
  | nothing
  | noHandle (name : String)
  | handleInUse (name : String)
  | wouldBlock
  | failure (e : Failure)
  | attachFailure (e : AttachFailure)
  | source (k : SourceId) (z : Sizing)
  | joined (l : Listener)
  | bytes (data : ByteArray)
  | drained (d : Drained)
  | number (n : Nat)
  | id (id : ConnectionId)
  | ids (ids : List ConnectionId)
  | view (v : ConnectionView)
  | views (vs : List ConnectionView)
  | flags (fs : List Bool)
  | protocolInfo (source sink : String)
  /-- A subscription was dropped; it had been active or not. -/
  | dropped (active : Bool)
  | properties (s : PropertySet)
  | service (type : String) (d : ServiceDescription)
  | manager (c : Settings) (declared : Nat)

end MediaRelay.Session
