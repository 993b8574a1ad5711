import MediaRelay.Catalog.Ranking
import MediaRelay.Connection.Registry
import MediaRelay.Connection.Settings
import MediaRelay.Schedule.Agenda
import MediaRelay.Stream.Feed
import MediaRelay.Stream.Reader

/-! # Relays

A relay has everything that shares streams: the live sources with their readers, at most one
connection manager with the subscriptions to it, the agenda of the one thread on which the manager
does its work, and a journal of what can be seen from outside.

A source lives as long as somebody holds it: its creator, a listener, or the manager's registry,
which retains it for others to join. Once nobody does, it is gone, and its closing tasks are posted.
-/
namespace MediaRelay

abbrev ManagerId := Nat

/-- What can be seen from outside, in the order in which it happens. -/
inductive Entry where
  | registered
  | unregistered
  /-- Control points were told of a change, with the ids of the connections at that moment if the
  service was still there to be asked. -/
  | event (ids : Option String)
  | started
  /-- A subscriber was told a number of connections, and saw as many. -/
  | count (tag : String) (told seen : Nat)
  | closed (tag : String)
  | detached (tag : String)

/-- The work of the manager's thread. Work for a manager that is gone comes to nothing. -/
inductive Task where
  | add (manager : ManagerId) (request : Request) (source : SourceId)
  | remove (manager : ManagerId) (id : ConnectionId)
  | close (manager : ManagerId)
  | subscribe (manager : ManagerId) (subscriber : Subscriber)
  | unsubscribe (manager : ManagerId) (id : SubscriberId)
  | sourceClosed (manager : ManagerId) (id : ConnectionId)
  | cursorLeft (manager : ManagerId) (id : ConnectionId)
  /-- The time to join a connection's source is over. -/
  | windowElapsed (manager : ManagerId) (id : ConnectionId)
  | announce
  | enter (entry : Entry)

/-- A live source with its feed, and the tasks to post when a cursor leaves and when it is gone. -/
structure Channel where
  feed : Feed
  owned : Bool := false
  onDetach : List Task := []
  onClose : List Task := []

structure Listener where
  source : SourceId
  reader : Reader

structure Subscription where
  manager : ManagerId
  subscriber : SubscriberId

structure Manager where
  id : ManagerId
  settings : Settings
  catalog : Catalog
  registry : Registry := .empty

structure Relay where
  channels : Roster SourceId Channel := .empty
  /-- Sources are numbered in the order of their creation. -/
  nextSource : SourceId := 0
  listeners : Roster String Listener := .empty
  subscriptions : Roster String Subscription := .empty
  manager : Option Manager := none
  nextManager : ManagerId := 0
  agenda : Agenda Task := {}
  journal : List Entry := []

namespace Relay

def enter (r : Relay) (e : Entry) : Relay := { r with journal := r.journal ++ [e] }

def post (r : Relay) (t : Task) : Relay := { r with agenda := r.agenda.post t }

def registry (r : Relay) : Registry := (r.manager.map Manager.registry).getD .empty

def updateRegistry (r : Relay) (f : Registry → Registry) : Relay :=
  { r with manager := r.manager.map fun m => { m with registry := f m.registry } }

def isManagedBy (r : Relay) (id : ManagerId) : Bool := r.manager.any fun m => m.id = id

def isInUse (r : Relay) (k : SourceId) : Bool :=
  (r.channels.get? k).any Channel.owned || r.listeners.values.any fun l => l.source = k

def isHeld (r : Relay) (k : SourceId) : Bool :=
  r.isInUse k || r.registry.retained.values.contains k

/-- Lets a source go that nobody holds any more. -/
def reap (r : Relay) (k : SourceId) : Relay :=
  match r.channels.get? k with
  | none => r
  | some c =>
    if r.isHeld k then r
    else { r with channels := r.channels.erase k, agenda := r.agenda.postAll c.onClose }

def updateChannel (r : Relay) (k : SourceId) (f : Channel → Channel) : Relay :=
  { r with channels := r.channels.modify k f }

def updateSource (r : Relay) (k : SourceId) (f : Source → Source) : Relay :=
  r.updateChannel k fun c => { c with feed := { c.feed with source := f c.feed.source } }

def forget (r : Relay) (id : ConnectionId) : Relay :=
  match r.registry.retained.get? id with
  | none => r
  | some k => (r.updateRegistry (·.forget id)).reap k

def settle (r : Relay) : Relay :=
  { r with channels := r.channels.mapValues fun c => { c with feed := c.feed.settle } }

end Relay
end MediaRelay
