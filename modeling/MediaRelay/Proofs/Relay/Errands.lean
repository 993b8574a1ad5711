import MediaRelay.Proofs.Relay.Seats

/-! # Calls under way

What a relay does in one move, threads do in several, and others come in between. A cursor that is
dropped is detached first; then what hangs on its source is posted, task by task; and then the
handle on the source is given up. Who gives up the last handle ends the source: it tells the
producer to stop, waits for the producer's read to come to something, and posts the closing tasks.
The tasks of the manager's thread change the table at one stroke, and give up handles, post and tell
afterwards.

An errand is what a thread does at one stroke. A thread has a list of errands before it, to which
each errand adds what follows from it. A handle is a listener, an entry of the registry, a queued
task that lists a source, or an errand to give it up.
-/
namespace MediaRelay

/-- Why a task is posted: a cursor has left a source, a source has ended, or anything else. -/
inductive Cause where
  | left (k : SourceId)
  | gone (k : SourceId)
  | other

inductive Errand where
  /-- To post all that hangs on a source for a cursor that leaves. -/
  | notify (k : SourceId)
  | post (cause : Cause) (t : Task)
  | join (k : SourceId) (name : String)
  /-- To give up a handle. -/
  | letGo (k : SourceId)
  /-- To tell the producer of a source that nobody holds to stop. -/
  | halt (k : SourceId)
  /-- To wait until it has. -/
  | await (k : SourceId)
  /-- To post all that hangs on a source for its end. -/
  | bury (k : SourceId)
  | serve (t : Task)
  | onClose (k : SourceId) (t : Task)
  | onDetach (k : SourceId) (t : Task)
  | timer (delay : Nat) (t : Task)
  | tellAll (n : Nat)
  | tell (n : Nat) (s : Subscriber)
  /-- To let whoever has asked for the listing of a source go on. -/
  | answer (k : SourceId)

/-- What is posted for a source, and its end, with what was hanging on it then. -/
inductive Record where
  | left (k : SourceId) (t : Task)
  | ended (k : SourceId) (closing : List Task)
  | gone (k : SourceId) (t : Task)

def Cause.record (t : Task) : Cause → List Record
  | .left k => [.left k t]
  | .gone k => [.gone k t]
  | .other => []

def Errand.letsGo (k : SourceId) : Errand → Bool
  | .letGo j => j = k
  | _ => false

def Errand.answers (k : SourceId) : Errand → Bool
  | .answer j => j = k
  | _ => false

namespace Relay

/-- The thread takes a connection off the table, with the handle that the registry has had. -/
def strikeOff (r : Relay) (m : ManagerId) (id : ConnectionId) : Relay × List Errand :=
  if r.isManagedBy m && r.registry.connections.contains id then
    let s := r.updateRegistry fun g => (g.delist id).forget id
    (s, (r.registry.retained.get? id).toList.map .letGo ++
      [.post .other .announce, .tellAll s.registry.count])
  else (r, [])

/-- The registry gives up its handle for a connection. -/
def giveUp (r : Relay) (m : ManagerId) (id : ConnectionId) : Relay × List Errand :=
  if r.isManagedBy m then
    (r.updateRegistry (·.forget id), (r.registry.retained.get? id).toList.map .letGo)
  else (r, [])

/-- What the manager's thread does of a task at one stroke, and what it does after. -/
def serve (r : Relay) : Task → Relay × List Errand
  | .add m request k =>
    match r.manager with
    | none => (r, [])
    | some manager =>
      if manager.id = m then
        let s := r.updateRegistry (·.add request k)
        let id := s.registry.lastId
        (s, [.onClose k (.sourceClosed m id), .onDetach k (.cursorLeft m id),
          .timer manager.settings.dedupWindow (.windowElapsed m id), .post .other .announce,
          .tellAll s.registry.count])
      else (r, [])
  | .remove m id => r.strikeOff m id
  | .sourceClosed m id => r.strikeOff m id
  | .close m =>
    if r.isManagedBy m then
      (r.updateRegistry fun g => { g.delistAll with retained := .empty },
        r.registry.retained.values.map .letGo ++ [.tellAll 0])
    else (r, [])
  | .cursorLeft m id => r.giveUp m id
  | .windowElapsed m id => r.giveUp m id
  | t => (r.perform t, [])

/-- What may be left to do behind a task. -/
inductive Follows (t : Task) : Errand → Prop
  | letGo (k : SourceId) : Follows t (.letGo k)
  | announce : Follows t (.post .other .announce)
  | tellAll (n : Nat) : Follows t (.tellAll n)
  | onClose (m : ManagerId) (request : Request) (k : SourceId) (u : Task) :
      t = .add m request k → Follows t (.onClose k u)
  | onDetach (m : ManagerId) (request : Request) (k : SourceId) (u : Task) :
      t = .add m request k → Follows t (.onDetach k u)
  | timer (delay : Nat) (u : Task) : Follows t (.timer delay u)

section
variable {r : Relay} {m : ManagerId} {id : ConnectionId} {t : Task} {e : Errand}

theorem follows_of_mem_strikeOff (h : e ∈ (r.strikeOff m id).2) : Follows t e := by
  unfold strikeOff at h
  split at h
  · rcases List.mem_append.mp h with h | h
    · obtain ⟨k, _, rfl⟩ := List.mem_map.mp h
      exact .letGo k
    · simp only [List.mem_cons, List.not_mem_nil, or_false] at h
      rcases h with rfl | rfl
      · exact .announce
      · exact .tellAll _
  · cases h

theorem follows_of_mem_giveUp (h : e ∈ (r.giveUp m id).2) : Follows t e := by
  unfold giveUp at h
  split at h
  · obtain ⟨k, _, rfl⟩ := List.mem_map.mp h
    exact .letGo k
  · cases h

theorem follows_of_mem_serve (h : e ∈ (r.serve t).2) : Follows t e := by
  cases t with
  | add m request k =>
    simp only [serve] at h
    split at h
    · cases h
    · split at h
      · simp only [List.mem_cons, List.not_mem_nil, or_false] at h
        rcases h with rfl | rfl | rfl | rfl | rfl
        · exact .onClose m request k _ rfl
        · exact .onDetach m request k _ rfl
        · exact .timer _ _
        · exact .announce
        · exact .tellAll _
      · cases h
  | remove m id => exact follows_of_mem_strikeOff h
  | sourceClosed m id => exact follows_of_mem_strikeOff h
  | close m =>
    simp only [serve] at h
    split at h
    · rcases List.mem_append.mp h with h | h
      · obtain ⟨k, _, rfl⟩ := List.mem_map.mp h
        exact .letGo k
      · rw [List.mem_singleton.mp h]
        exact .tellAll 0
    · cases h
  | cursorLeft m id => exact follows_of_mem_giveUp h
  | windowElapsed m id => exact follows_of_mem_giveUp h
  | subscribe m s => cases h
  | unsubscribe m id => cases h
  | announce => cases h
  | enter entry => cases h

end

/-- Tells a subscriber, who may cancel subscriptions and ask for a removal meanwhile. -/
def telling (r : Relay) (n : Nat) (s : Subscriber) : Relay × List Errand :=
  let told := s.cancels.foldl cancelOnThread (r.enter (.count s.tag n r.registry.count))
  (told, (s.removes.bind fun id => told.manager.map fun m => .serve (.remove m.id id)).toList)

theorem eq_of_mem_telling {r : Relay} {n : Nat} {s : Subscriber} {e : Errand}
    (h : e ∈ (r.telling n s).2) : ∃ i id, e = .serve (.remove i id) := by
  obtain ⟨id, _, he⟩ := Option.bind_eq_some_iff.mp (Option.mem_toList.mp h)
  obtain ⟨m, _, rfl⟩ := Option.map_eq_some_iff.mp he
  exact ⟨m.id, id, rfl⟩

end Relay

/-- A relay, the sources that nobody holds any more and whose closing tasks are not posted yet, and
what has been posted for sources. -/
structure Site where
  relay : Relay
  fading : Roster SourceId Channel := .empty
  log : List Record := []

namespace Site

def isHeld (x : Site) (others : List Errand) (k : SourceId) : Bool :=
  x.relay.isHeld k || (x.relay.agenda.queue.any fun t => Relay.adds? t = some k) ||
    others.any (Errand.letsGo k)

theorem isHeld_iff (x : Site) (others : List Errand) (k : SourceId) : x.isHeld others k = true ↔
    x.relay.isHeld k = true ∨ (∃ t ∈ x.relay.agenda.queue, Relay.adds? t = some k) ∨
      .letGo k ∈ others := by
  have hgo : others.any (Errand.letsGo k) = true ↔ .letGo k ∈ others := by
    rw [List.any_eq_true]
    constructor
    · rintro ⟨d, hd, hk⟩
      cases d <;> simp only [Errand.letsGo, Bool.false_eq_true, decide_eq_true_eq] at hk
      rwa [hk] at hd
    · exact fun hk => ⟨_, hk, by simp [Errand.letsGo]⟩
  simp only [isHeld, Bool.or_eq_true, hgo, List.any_eq_true, decide_eq_true_eq, or_assoc]

/-- The tasks that are to be posted for a source that nobody holds any more. -/
def closing (x : Site) (k : SourceId) : List Task :=
  ((x.fading.get? k).map Channel.onClose).getD []

/-- The last handle on a source is given up. -/
def endSource (x : Site) (k : SourceId) : Site × List Errand :=
  match x.relay.channels.get? k with
  | none => (x, [])
  | some c =>
    ({ relay := { x.relay with channels := x.relay.channels.erase k }
       fading := x.fading.put k c
       log := x.log ++ [.ended k c.onClose] },
      [.halt k, .await k, .bury k])

/-- Does an errand that a thread has come to, unless it has to wait; with what follows. The others
are all errands that are left besides. -/
def do? (x : Site) (others : List Errand) : Errand → Option (Site × List Errand)
  | .notify k =>
    some (x, (((x.relay.channels.get? k).map Channel.onDetach).getD []).map (.post (.left k)))
  | .post cause t => some ({ x with relay := x.relay.post t, log := x.log ++ cause.record t }, [])
  | .join k name =>
    if x.relay.listeners.contains name then some (x, [])
    else some ({ x with relay := x.relay.joining k name }, [])
  | .letGo k => some (if x.isHeld others k then (x, []) else x.endSource k)
  | .halt k =>
    some ({ x with fading := x.fading.modify k fun c => { c with feed := c.feed.halt } }, [])
  | .await k =>
    if (x.fading.get? k).any fun c => c.feed.source.reserved.isSome then none else some (x, [])
  | .bury k => some ({ x with fading := x.fading.erase k }, (x.closing k).map (.post (.gone k)))
  | .serve t => some ({ x with relay := (x.relay.serve t).1 }, (x.relay.serve t).2)
  | .onClose k t => some ({ x with relay := x.relay.onClose k t }, [])
  | .onDetach k t => some ({ x with relay := x.relay.onDetach k t }, [])
  | .timer delay t =>
    some ({ x with relay := { x.relay with agenda := x.relay.agenda.timer delay t } }, [])
  | .tellAll n => some (x, x.relay.registry.subscribers.values.map (.tell n))
  | .tell n s => some ({ x with relay := (x.relay.telling n s).1 }, (x.relay.telling n s).2)
  | .answer _ => some (x, [])

end Site

/-- A site, and what the threads have before them: the manager's, and those of others with a call
under way. -/
structure Crew extends Site where
  thread : List Errand := []
  calls : List (List Errand) := []

namespace Crew

def errands (x : Crew) : List Errand := x.thread ++ x.calls.flatten

/-- What the manager's thread has before it when it takes a task: a task that lists a source has a
handle on it, and whoever has asked for it waits. -/
def begin (t : Task) : List Errand :=
  .serve t :: (Relay.adds? t).toList.flatMap fun k => [.letGo k, .answer k]

/-- The manager's thread goes on, or takes the next task. -/
def goOn (x : Crew) : Crew :=
  match x.thread with
  | e :: rest =>
    match x.do? (rest ++ x.calls.flatten) e with
    | none => x
    | some (y, more) => { x with toSite := y, thread := more ++ rest }
  | [] =>
    match x.relay.agenda.queue with
    | [] => x
    | t :: queue =>
      { x with
        relay := { x.relay with agenda := { x.relay.agenda with queue := queue } }
        thread := begin t }

/-- A call under way goes on. -/
def goOnCall (x : Crew) (n : Nat) : Crew :=
  match x.calls[n]? with
  | some (e :: rest) =>
    match x.do? (x.thread ++ (x.calls.set n rest).flatten) e with
    | none => x
    | some (y, more) => { x with toSite := y, calls := x.calls.set n (more ++ rest) }
  | _ => x

/-- Whoever waits for the listing of a source stays. -/
def mayLeave (x : Crew) (name : String) (l : Listener) : Bool :=
  x.relay.mayLeave name l &&
    (!x.errands.any (Errand.answers l.source) ||
      (x.relay.listeners.erase name).values.any fun other => other.source = l.source)

end Crew

/-- Something that happens at a relay with calls under way. -/
inductive Stroke where
  | openReader (name : String) (z : Sizing) (i : Input)
  | attach (other name : String)
  | tryAttach (request : Request) (name : String)
  | call (name : String) (call : Call)
  | leave (name : String)
  | produce (k : SourceId)
  | feed (k : SourceId) (items : List InputItem)
  | onClose (k : SourceId) (tag : String)
  | onDetach (k : SourceId) (tag : String)
  | add (name : String) (request : Request)
  | remove (id : ConnectionId)
  | close
  | subscribe (s : Subscriber)
  | unsubscribe (id : SubscriberId)
  | subscriptions (all : Roster String Subscription)
  /-- The manager's thread goes on. -/
  | thread
  /-- One of the calls under way goes on. -/
  | caller (n : Nat)
  /-- The manager's thread is idle, and one of the timers fires. -/
  | fire (n : Nat)

namespace Crew

def make (x : Crew) : Stroke → Crew
  | .openReader name z i =>
    let (k, opened) := x.relay.openSource z i false
    { x with relay := opened, calls := x.calls ++ [[.join k name, .letGo k]] }
  | .attach other name => { x with relay := x.relay.make (.attach other name) }
  | .tryAttach request name =>
    match x.relay.registry.candidate? request.key with
    | none => x
    | some (_, k) => { x with calls := x.calls ++ [[.join k name, .letGo k]] }
  | .call name call => { x with relay := x.relay.make (.call name call) }
  | .leave name =>
    match x.relay.listeners.get? name with
    | none => x
    | some l =>
      if x.mayLeave name l then
        { x with
          relay := x.relay.detached name l
          calls := x.calls ++ [[.notify l.source, .letGo l.source]] }
      else x
  | .produce k =>
    let step := fun c : Channel => { c with feed := c.feed.step?.getD c.feed }
    { x with relay := x.relay.updateChannel k step, fading := x.fading.modify k step }
  | .feed k items =>
    let more := fun c : Channel =>
      { c with feed := { c.feed with input := c.feed.input.feed items } }
    { x with relay := x.relay.feed k items, fading := x.fading.modify k more }
  | .onClose k tag => { x with relay := x.relay.make (.onClose k tag) }
  | .onDetach k tag => { x with relay := x.relay.make (.onDetach k tag) }
  | .add name request => { x with relay := x.relay.make (.add name request) }
  | .remove id => { x with relay := x.relay.make (.remove id) }
  | .close => { x with relay := x.relay.make .close }
  | .subscribe s => { x with relay := x.relay.make (.subscribe s) }
  | .unsubscribe id => { x with relay := x.relay.make (.unsubscribe id) }
  | .subscriptions all => { x with relay := x.relay.make (.subscriptions all) }
  | .thread => x.goOn
  | .caller n => x.goOnCall n
  | .fire n =>
    match x.thread, x.relay.agenda.timers[n]? with
    | [], some t =>
      { x with
        relay := { x.relay with agenda := { x.relay.agenda with
          timers := x.relay.agenda.timers.eraseIdx n
          clock := max x.relay.agenda.clock t.due } }
        thread := [.serve t.task] }
    | _, _ => x

/-- A relay with a manager of any settings and any catalog, after any strokes. -/
def run (c : Settings) (catalog : Catalog) (strokes : List Stroke) : Crew :=
  strokes.foldl make { relay := ({} : Relay).makeManager c catalog }

end Crew
end MediaRelay
