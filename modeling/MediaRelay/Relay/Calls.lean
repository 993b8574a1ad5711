import MediaRelay.Relay.Streams
import MediaRelay.Relay.Work

/-! # Calls on the connection manager

What clients ask of a manager. Looking something up, and joining a running source, happens at once;
every change of the table or of the subscribers is sent to the manager's thread, and fails when
that thread has been stopped.
-/
namespace MediaRelay.Relay

/-- The service goes first, then the sources that the registry has retained. -/
def dropManager (r : Relay) : Relay :=
  match r.manager with
  | none => r
  | some m =>
    { m.registry.retained.ids.foldl forget (r.enter .unregistered) with manager := none }

/-- A new manager takes the place of the one before. -/
def makeManager (r : Relay) (c : Settings) (catalog : Catalog) : Relay :=
  let r := r.dropManager.enter .registered
  { r with
    manager := some { id := r.nextManager, settings := c, catalog := catalog }
    nextManager := r.nextManager + 1 }

def tryAttach (r : Relay) (request : Request) (name : String) :
    Except AttachFailure (Listener × Relay) :=
  match r.registry.candidate? request.key with
  | none => .error (.noMatch request.key)
  | some (id, k) =>
    match r.join? k name with
    | none => .error (.windowClosed id)
    | some joined => .ok joined

def addConnection (r : Relay) (m : Manager) (request : Request) (k : SourceId) :
    Except Failure (ConnectionId × Relay) :=
  match r.send? (.add m.id request k) with
  | none => .error .schedulerStopped
  | some r => .ok (r.registry.lastId, r)

/-- Serves a request from a running source if possible, or else from a new one. A new source that
cannot be listed is gone with its only listener before anybody else has seen it. -/
def openConnection (r : Relay) (m : Manager) (request : Request) (name : String)
    (start : Except InputFailure Input) (refusal : Option InputFailure) :
    Except Failure Listener × Relay :=
  match r.tryAttach request name with
  | .ok (l, r) => (.ok l, r)
  | .error _ =>
    let r := r.enter .started
    match start with
    | .error cause => (.error (.input cause), r)
    | .ok input =>
      match r.openSource? m.settings.sizing input false refusal with
      | .error cause => (.error (.input cause), r)
      | .ok (k, opened) =>
        match opened.join? k name with
        | none => (.error (.input .attachRefused), r)
        | some (l, joined) =>
          match joined.addConnection m request k with
          | .error e => (.error e, r)
          | .ok (_, listed) => (.ok l, listed)

def removeConnection (r : Relay) (m : Manager) (id : ConnectionId) : Except Failure Relay :=
  match r.send? (.remove m.id id) with
  | none => .error .schedulerStopped
  | some r => .ok r

def closeAll (r : Relay) (m : Manager) : Except Failure Relay :=
  match r.send? (.close m.id) with
  | none => .error .schedulerStopped
  | some r => .ok r

def subscribe (r : Relay) (m : Manager) (s : Subscriber) : Except Failure Relay :=
  match r.send? (.subscribe m.id s) with
  | none => .error .schedulerStopped
  | some r =>
    let id := r.registry.nextSubscriber - 1
    .ok { r with subscriptions := r.subscriptions.put s.tag ⟨m.id, id⟩ }

/-- Drops a subscription from outside the manager's thread. If the thread has been stopped, nobody
can be told anything any more, and the subscriber is struck off at once. -/
def unsubscribe (r : Relay) (tag : String) : Relay :=
  match r.subscriptions.get? tag with
  | none => r
  | some s =>
    let r := { r with subscriptions := r.subscriptions.erase tag }
    if r.isManagedBy s.manager then
      match r.send? (.unsubscribe s.manager s.subscriber) with
      | none => r.updateRegistry (·.unsubscribe s.subscriber)
      | some r => r
    else r

end MediaRelay.Relay
