import MediaRelay.Relay.Basic
import MediaRelay.Total

/-! # The work of the manager's thread

Every change of the connection table and of the subscribers is a task on one thread, so subscribers
are told the numbers of connections in the order of the changes. A subscriber may ask for further
removals while it is being told; they happen on the spot.
-/
namespace MediaRelay.Relay

def cancelOnThread (r : Relay) (tag : String) : Relay :=
  match r.subscriptions.get? tag with
  | none => r
  | some s =>
    let r := { r with subscriptions := r.subscriptions.erase tag }
    if r.isManagedBy s.manager then r.updateRegistry (·.unsubscribe s.subscriber) else r

def tell (remove : ConnectionId → Relay → Relay) (n : Nat) (r : Relay) (s : Subscriber) : Relay :=
  let r := s.cancels.foldl cancelOnThread (r.enter (.count s.tag n r.registry.count))
  match s.removes with
  | none => r
  | some id => remove id r

/-- Tells all who are subscribed at this moment. -/
def tellAll (remove : ConnectionId → Relay → Relay) (n : Nat) (r : Relay) : Relay :=
  r.registry.subscribers.values.foldl (tell remove n) r

/-- Takes a connection off the table, if it is listed. Removals by subscribers lie within one
another no deeper than there are connections. -/
def removeWithin : Nat → ConnectionId → Relay → Relay
  | 0, _, r => r
  | depth + 1, id, r =>
    if r.registry.connections.contains id then
      let r := r.updateRegistry (·.delist id)
      let n := r.registry.count
      tellAll (removeWithin depth) n ((r.forget id).post .announce)
    else r

def remove (id : ConnectionId) (r : Relay) : Relay := removeWithin r.registry.count id r

/-- Lists a new connection. Its source is retained until the window elapses or a cursor leaves, and
the connection goes with its source. -/
def add (m : Manager) (request : Request) (k : SourceId) (r : Relay) : Relay :=
  let r := r.updateRegistry (·.add request k)
  let id := r.registry.lastId
  let r := r.updateChannel k fun c =>
    { c with
      onClose := c.onClose ++ [.sourceClosed m.id id]
      onDetach := c.onDetach ++ [.cursorLeft m.id id] }
  let r := { r with agenda := r.agenda.timer m.settings.dedupWindow (.windowElapsed m.id id) }
  let n := r.registry.count
  tellAll remove n (r.post .announce)

/-- Takes all connections off the table. This is not announced to control points. -/
def clear (r : Relay) : Relay :=
  let r := r.updateRegistry (·.delistAll)
  tellAll remove 0 (r.registry.retained.ids.foldl forget r)

def perform (r : Relay) : Task → Relay
  | .add m request k =>
    match r.manager with
    | some manager => if manager.id = m then r.add manager request k else r
    | none => r
  | .remove m id => if r.isManagedBy m then r.remove id else r
  | .close m => if r.isManagedBy m then r.clear else r
  | .subscribe m s => if r.isManagedBy m then r.updateRegistry (·.subscribe s) else r
  | .unsubscribe m id => if r.isManagedBy m then r.updateRegistry (·.unsubscribe id) else r
  | .sourceClosed m id => if r.isManagedBy m then r.remove id else r
  | .cursorLeft m id => if r.isManagedBy m then r.forget id else r
  | .windowElapsed m id => if r.isManagedBy m then r.forget id else r
  | .announce => r.enter (.event (r.manager.map fun m => m.registry.idList))
  | .enter e => r.enter e

def runNext? (r : Relay) : Option Relay :=
  match r.agenda.next? with
  | none => none
  | some (t, agenda) => some ({ r with agenda := agenda }.perform t)

/-- Runs up to the given number of tasks, and tells how many there were. -/
def runUpTo : Nat → Relay → Nat × Relay
  | 0, r => (0, r)
  | n + 1, r =>
    match r.runNext? with
    | none => (0, r)
    | some r =>
      let (k, r) := runUpTo n r
      (k + 1, r)

/-- An addition posts an announcement, and leaves a closing task and a connection to be removed. -/
def Task.cost : Task → Nat
  | .add _ _ _ => 4
  | _ => 1

/-- An upper bound on the tasks that run before the queue is empty: a source that goes posts its
closing tasks, a connection that goes posts an announcement. -/
def workload (r : Relay) : Nat :=
  total Task.cost r.agenda.queue + total (fun c => c.onClose.length) r.channels.values
    + r.registry.count

def runAll (r : Relay) : Nat × Relay := runUpTo r.workload r

def drain (r : Relay) : Relay := r.runAll.2

/-- Fires up to the given number of timers that are due by `limit`, each with all tasks that it
gives rise to, and tells how many there were. -/
def fireUpTo : Nat → Nat → Relay → Nat × Relay
  | 0, _, r => (0, r)
  | n + 1, limit, r =>
    match r.agenda.due? limit with
    | none => (0, r)
    | some (t, agenda) =>
      let (k, r) := fireUpTo n limit ({ r with agenda := agenda }.perform t).drain
      (k + 1, r)

/-- Lets time pass, and tells how many timers have fired. -/
def advance (r : Relay) (delay : Nat) : Nat × Relay :=
  let limit := r.agenda.clock + delay
  let r := r.drain
  let (k, r) := fireUpTo r.agenda.timers.length limit r
  (k, { r with agenda := { r.agenda with clock := limit } })

/-- Has a task done after all that is queued, unless the thread has been stopped. -/
def send? (r : Relay) (t : Task) : Option Relay :=
  if r.agenda.stopped then none else some (r.drain.perform t)

end MediaRelay.Relay
