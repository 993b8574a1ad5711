import MediaRelay.Connection.Record
import MediaRelay.Roster
import MediaRelay.Text.CommaList

/-! # The registry of output connections

The table of active connections, the sources that are retained so that others can join them, and
the subscribers to the number of connections. Ids are issued in ascending order and never again, so
the table stands in the order of the ids.
-/
namespace MediaRelay

abbrev SubscriberId := Nat

/-- A subscriber to the number of connections: when told a number, it notes it under its tag, then
cancels the subscriptions with the given tags, then asks for a connection to be removed. -/
structure Subscriber where
  tag : String
  cancels : List String := []
  removes : Option ConnectionId := none

structure Registry where
  lastId : ConnectionId := 0
  connections : Roster ConnectionId Connection := .empty
  /-- The retained sources, under the ids of their connections. -/
  retained : Roster ConnectionId SourceId := .empty
  subscribers : Roster SubscriberId Subscriber := .empty
  nextSubscriber : SubscriberId := 0
  ascending : connections.ids.Pairwise (· < ·) := by exact List.Pairwise.nil
  issued : ∀ id ∈ connections.ids, id ≤ lastId := by exact fun _ h => (List.not_mem_nil h).elim

namespace Registry

def empty : Registry := {}

def ids (r : Registry) : List ConnectionId := r.connections.ids

def count (r : Registry) : Nat := r.connections.size

def idList (r : Registry) : String := commaJoined (r.ids.map toString)

/-- Lists a connection under the next id and retains its source. -/
def add (r : Registry) (request : Request) (source : SourceId) : Registry :=
  let id := r.lastId + 1
  { r with
    lastId := id
    connections := r.connections.put id (.ofRequest id request source)
    retained := r.retained.put id source
    ascending := by
      rw [Roster.ids_put]
      refine List.pairwise_append.mpr ⟨r.ascending.filter _, List.pairwise_singleton _ _, ?_⟩
      intro j hj k hk
      rw [List.mem_singleton.mp hk]
      exact Int.lt_add_one_of_le (r.issued j (List.mem_filter.mp hj).1)
    issued := by
      intro j hj
      rw [Roster.ids_put] at hj
      rcases List.mem_append.mp hj with hj | hj
      · exact Int.le_of_lt (Int.lt_add_one_of_le (r.issued j (List.mem_filter.mp hj).1))
      · exact Int.le_of_eq (List.mem_singleton.mp hj) }

def delist (r : Registry) (id : ConnectionId) : Registry :=
  { r with
    connections := r.connections.erase id
    ascending := by
      rw [Roster.ids_erase]
      exact r.ascending.filter _
    issued := by
      intro j hj
      rw [Roster.ids_erase] at hj
      exact r.issued j (List.mem_filter.mp hj).1 }

def delistAll (r : Registry) : Registry :=
  { r with
    connections := .empty
    ascending := List.Pairwise.nil
    issued := fun _ h => (List.not_mem_nil h).elim }

def forget (r : Registry) (id : ConnectionId) : Registry :=
  { r with retained := r.retained.erase id }

/-- The source that is retained for a listed connection, if it serves the key. -/
def offer? (r : Registry) (key : OutputKey) (e : ConnectionId × Connection) :
    Option (ConnectionId × SourceId) :=
  if e.2.serves key then (r.retained.get? e.1).map fun source => (e.1, source) else none

/-- The first listed connection that serves the key and whose source is retained. -/
def candidate? (r : Registry) (key : OutputKey) : Option (ConnectionId × SourceId) :=
  r.connections.entries.findSome? (r.offer? key)

def subscribe (r : Registry) (s : Subscriber) : Registry :=
  { r with
    subscribers := r.subscribers.put r.nextSubscriber s
    nextSubscriber := r.nextSubscriber + 1 }

def unsubscribe (r : Registry) (id : SubscriberId) : Registry :=
  { r with subscribers := r.subscribers.erase id }

end Registry
end MediaRelay
