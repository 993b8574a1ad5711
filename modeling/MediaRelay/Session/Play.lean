import MediaRelay.Session.Step

/-! # Playing a session

Each step answers and changes the relay; then every producer runs as far as it can. In a live
session the manager's thread runs by itself, so that all queued tasks are done after each step and
nobody can count them.
-/
namespace MediaRelay.Session

def sourceName (k : SourceId) : String := "s" ++ toString (k + 1)

def sourceNamed? (r : Relay) (name : String) : Option SourceId :=
  (List.range r.nextSource).find? fun k => sourceName k = name

def liveSource? (r : Relay) (name : String) : Option SourceId :=
  (sourceNamed? r name).filter r.channels.contains

def ownSource? (r : Relay) (name : String) : Option SourceId :=
  (sourceNamed? r name).filter fun k => (r.channels.get? k).any Channel.owned

def request (m : Manager) (a : Ask) : Request :=
  let protocol :=
    match a.protocol with
    | .given p => p
    | .find profile w => m.catalog.lookup profile w
  ⟨protocol, a.resource, a.endpoint, a.options⟩

def view (r : Relay) (c : Connection) : ConnectionView := ⟨c, r.channels.contains c.source⟩

def naming (r : Relay) (name : String) (go : Answer × Relay) : Answer × Relay :=
  if r.listeners.contains name then (.handleInUse name, r) else go

def hearing (r : Relay) (name : String) (go : Listener → Answer × Relay) : Answer × Relay :=
  match r.listeners.get? name with
  | none => (.noHandle name, r)
  | some l => go l

def managed (r : Relay) (go : Manager → Answer × Relay) : Answer × Relay :=
  match r.manager with
  | none => (.noHandle "manager", r)
  | some m => go m

def sourced (r : Relay) (name : String) (k : Option SourceId) (go : SourceId → Answer × Relay) :
    Answer × Relay :=
  match k with
  | none => (.noHandle name, r)
  | some k => go k

def joining (r : Relay) (k : SourceId) (name : String) : Answer × Relay :=
  match r.join? k name with
  | none => (.nothing, r)
  | some (l, r) => (.joined l, r)

def listening {α : Type} (r : Relay) (name : String)
    (act : Reader → Feed → Option (α × Reader × Feed)) (answer : α → Answer) : Answer × Relay :=
  hearing r name fun _ =>
    match r.listen? name act with
    | none => (.wouldBlock, r)
    | some (a, r) => (answer a, r)

def onSource {α : Type} (op : Reader → Source → Option (α × Reader × Source)) (rd : Reader)
    (f : Feed) : Option (α × Reader × Feed) :=
  (op rd f.source).map fun (a, rd, s) => (a, rd, { f with source := s })

def attempt (r : Relay) (result : Except Failure Relay) : Answer × Relay :=
  match result with
  | .error e => (.failure e, r)
  | .ok r => (.ok, r)

/-- A session feeds no source any more of which it has neither a listener nor the creator's hold. -/
def closeInput (r : Relay) (k : SourceId) : Relay :=
  if r.isInUse k then r
  else r.updateChannel k fun c => { c with feed := { c.feed with input := c.feed.input.close } }

/-- Takes one step. The names of listeners are looked at first, then whether there is a manager. -/
def take (r : Relay) : Step → Answer × Relay
  | .source z items gated =>
    let (k, r) := r.openSource z { items := items, gated := gated } true
    (.source k z.clamped, r)
  | .openReader name z items gated =>
    naming r name <|
      let (k, r) := r.openSource z { items := items, gated := gated } false
      joining r k name
  | .attach source name =>
    naming r name <| sourced r source (ownSource? r source) fun k => joining r k name
  | .attachBeside other name =>
    naming r name <| hearing r other fun l => joining r l.source name
  | .feed source items =>
    sourced r source (sourceNamed? r source) fun k => (.ok, r.feed k items)
  | .fill name =>
    listening r name (onSource fun rd s => (rd.fill? s).map fun (rd, s) => (rd.rest, rd, s)) .bytes
  | .consume name n =>
    listening r name (onSource fun rd s => let (rd, s) := rd.consume n s; some ((), rd, s))
      fun _ => .ok
  | .read name n => listening r name (onSource fun rd s => rd.read? n s) .bytes
  | .chunk name =>
    listening r name (onSource fun rd s => rd.chunk? s) fun
      | some data => .bytes data
      | none => .nothing
  | .drain name n most => listening r name (fun rd f => some (rd.drain n most f)) .drained
  | .dropReader name => hearing r name fun l => (.ok, closeInput (r.leave name) l.source)
  | .dropSource source =>
    sourced r source (ownSource? r source) fun k => (.ok, closeInput (r.disown k) k)
  | .onClose source tag =>
    sourced r source (liveSource? r source) fun k => (.ok, r.onClose k (.enter (.closed tag)))
  | .onDetach source tag =>
    sourced r source (liveSource? r source) fun k => (.ok, r.onDetach k (.enter (.detached tag)))
  | .run most =>
    let (n, r) :=
      match most with
      | none => r.runAll
      | some most => r.runUpTo most
    (.number n, r)
  | .advance delay =>
    let (n, r) := r.advance delay
    (.number n, r)
  | .stop => (.ok, { r with agenda := r.agenda.stop })
  | .manager c catalog => (.manager c catalog.size, r.makeManager c catalog)
  | .openConnection name ask start =>
    naming r name <| managed r fun m =>
      let input := start.map fun items => { items := items }
      match r.openConnection m (request m ask) name input none with
      | (.error e, r) => (.failure e, r)
      | (.ok l, r) => (.joined l, r)
  | .tryAttach name ask =>
    naming r name <| managed r fun m =>
      match r.tryAttach (request m ask) name with
      | .error e => (.attachFailure e, r)
      | .ok (l, r) => (.joined l, r)
  | .add name ask =>
    hearing r name fun l => managed r fun m =>
      match r.addConnection m (request m ask) l.source with
      | .error e => (.failure e, r)
      | .ok (id, r) => (.id id, r)
  | .remove id => managed r fun m => attempt r (r.removeConnection m id)
  | .close => managed r fun m => attempt r (r.closeAll m)
  | .ids => managed r fun m => (.ids m.registry.ids, r)
  | .count => managed r fun m => (.number m.registry.count, r)
  | .info id =>
    managed r fun m =>
      match m.registry.connections.get? id with
      | none => (.nothing, r)
      | some c => (.view (view r c), r)
  | .infos => managed r fun m => (.views (m.registry.connections.values.map (view r)), r)
  | .serving q =>
    managed r fun m =>
      (.flags (m.registry.connections.values.map fun c => c.serves q.key), r)
  | .protocolInfo => managed r fun m => (.protocolInfo m.catalog.sourceInfo m.catalog.sinkInfo, r)
  | .subscribe s =>
    managed r fun m =>
      if r.subscriptions.contains s.tag then (.handleInUse s.tag, r)
      else attempt r (r.subscribe m s)
  | .unsubscribe tag =>
    if r.subscriptions.contains tag then (.dropped true, r.unsubscribe tag) else (.noHandle tag, r)
  | .properties =>
    match r.manager with
    | none => (.nothing, r)
    | some m => (.properties (ConnectionManagerService.evented m.catalog m.registry), r)
  | .describe =>
    match r.manager with
    | none => (.nothing, r)
    | some _ =>
      (.service ConnectionManagerService.serviceType ConnectionManagerService.description, r)
  | .dropManager => managed r fun _ => (.ok, r.dropManager)

structure SourceReport where
  source : Source
  reads : List Nat

structure ListenerReport where
  name : String
  source : SourceId
  cursor : CursorId
  position : Option Nat
  pending : Nat

structure Report where
  answer : Answer
  /-- One for each source there has been; none for one that is gone. -/
  sources : List (Option SourceReport)
  listeners : List ListenerReport
  journal : List Entry
  ids : Option (List ConnectionId)
  agenda : Option (Agenda Task)

def report (live : Bool) (r : Relay) (answer : Answer) : Report where
  answer := answer
  sources := (List.range r.nextSource).map fun k =>
    (r.channels.get? k).map fun c => ⟨c.feed.source, c.feed.asked.reverse⟩
  listeners := r.listeners.entries.map fun (name, l) =>
    { name := name
      source := l.source
      cursor := l.reader.cursor
      position := (r.channels.get? l.source).bind fun c => c.feed.source.position? l.reader.cursor
      pending := l.reader.pending }
  journal := r.journal
  ids := r.manager.map fun m => m.registry.ids
  agenda := if live then none else some r.agenda

def reported (r : Relay) : Relay :=
  { r with
    journal := []
    channels := r.channels.mapValues fun c => { c with feed := { c.feed with asked := [] } } }

def playFrom (live : Bool) : Relay → List Step → List Report
  | _, [] => []
  | r, s :: rest =>
    let (answer, r) := take r s
    let answer := if live && s.isScheduling then .nothing else answer
    let r := (if live then r.drain else r).settle
    report live r answer :: playFrom live (reported r) rest

def play (live : Bool) (steps : List Step) : List Report := playFrom live {} steps

end MediaRelay.Session
