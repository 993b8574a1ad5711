import MediaRelay.Proofs.Relay.Work
import MediaRelay.Proofs.Stream.Fidelity
import MediaRelay.Relay.Calls

/-! # Everything that happens at a relay

Listeners come, read and leave, the thread takes one task after another from its queue, timers fire,
and all this in any order. A call on the manager that changes the table only asks the thread; what
else happens until its task is run, nobody can tell. To open a connection is to try to attach, and
failing that to open a reader and to ask for its listing. There is one manager, its thread is not
stopped, and nobody but listeners and the registry holds a source.
-/
namespace MediaRelay

/-- What a call on a reader does, unless it has to wait. -/
def Call.act? (rd : Reader) (s : Source) : Call → Option (Reader × Source)
  | .fill => rd.fill? s
  | .consume n => some (rd.consume n s)
  | .read n => (rd.read? n s).map Prod.snd
  | .chunk => (rd.chunk? s).map Prod.snd

def Feed.halt (f : Feed) : Feed := { f with source := { f.source with ended := true } }

/-- Something that happens at a relay. -/
inductive Move where
  | openReader (name : String) (z : Sizing) (i : Input)
  | attach (other name : String)
  | tryAttach (request : Request) (name : String)
  | call (name : String) (call : Call)
  | leave (name : String)
  | produce (k : SourceId)
  | feed (k : SourceId) (items : List InputItem)
  | onClose (k : SourceId) (tag : String)
  | onDetach (k : SourceId) (tag : String)
  /-- The thread is asked to list the source of a listener, who waits for the answer. -/
  | add (name : String) (request : Request)
  | remove (id : ConnectionId)
  | close
  | subscribe (s : Subscriber)
  | unsubscribe (id : SubscriberId)
  /-- The owners of subscriptions keep some and give up others. -/
  | subscriptions (all : Roster String Subscription)
  /-- The thread runs the next task. -/
  | run
  /-- One of the timers fires. -/
  | fire (n : Nat)

namespace Relay

def ask (r : Relay) (t : ManagerId → Task) : Relay :=
  match r.manager with
  | none => r
  | some m => r.post (t m.id)

def joining (r : Relay) (k : SourceId) (name : String) : Relay :=
  ((r.join? k name).map Prod.snd).getD r

/-- Whoever waits for the thread to list a source stays. -/
def mayLeave (r : Relay) (name : String) (l : Listener) : Bool :=
  r.agenda.queue.all fun t =>
    adds? t ≠ some l.source || (r.listeners.erase name).values.any fun m => m.source = l.source

def fire? (r : Relay) (n : Nat) : Option Relay :=
  match r.agenda.timers[n]? with
  | none => none
  | some t =>
    let agenda := { r.agenda with
      timers := r.agenda.timers.eraseIdx n
      clock := max r.agenda.clock t.due }
    some ({ r with agenda := agenda }.perform t.task)

def make (r : Relay) : Move → Relay
  | .openReader name z i =>
    if r.listeners.contains name then r
    else
      let (k, opened) := r.openSource z i false
      opened.joining k name
  | .attach other name =>
    match r.listeners.contains name, r.listeners.get? other with
    | false, some l => r.joining l.source name
    | _, _ => r
  | .tryAttach request name =>
    match r.listeners.contains name, r.tryAttach request name with
    | false, .ok (_, joined) => joined
    | _, _ => r
  | .call name call =>
    let act := fun rd f =>
      (call.act? rd f.source).map fun (rd, s) => ((), rd, { f with source := s })
    ((r.listen? name act).map Prod.snd).getD r
  | .leave name =>
    match r.listeners.get? name with
    | none => r
    | some l => if r.mayLeave name l then r.leave name else r
  | .produce k => r.updateChannel k fun c => { c with feed := c.feed.step?.getD c.feed }
  | .feed k items => r.feed k items
  | .onClose k tag => r.onClose k (.enter (.closed tag))
  | .onDetach k tag => r.onDetach k (.enter (.detached tag))
  | .add name request =>
    match r.listeners.get? name with
    | none => r
    | some l => r.ask fun m => .add m request l.source
  | .remove id => r.ask fun m => .remove m id
  | .close => r.ask .close
  | .subscribe s => r.ask fun m => .subscribe m s
  | .unsubscribe id => r.ask fun m => .unsubscribe m id
  | .subscriptions all => { r with subscriptions := all }
  | .run => r.runNext?.getD r
  | .fire n => (r.fire? n).getD r

/-- A relay with a manager of any settings and any catalog, after any moves. -/
def runMoves (c : Settings) (catalog : Catalog) (moves : List Move) : Relay :=
  moves.foldl make (({} : Relay).makeManager c catalog)

end Relay

/-! ## Seats

A seat is a cursor that a listener has at a source. Reading and producing leave all seats as they
are.
-/

/-- No cursor has come or gone. -/
structure Source.SeatsAlike (s t : Source) : Prop where
  nextCursor : t.nextCursor = s.nextCursor
  cursors : ∀ id, (t.cursors.get? id).isSome = (s.cursors.get? id).isSome

namespace Source.SeatsAlike
variable {s t u : Source}

theorem refl (s : Source) : s.SeatsAlike s := ⟨rfl, fun _ => rfl⟩

theorem trans (h : s.SeatsAlike t) (h' : t.SeatsAlike u) : s.SeatsAlike u :=
  ⟨h'.nextCursor.trans h.nextCursor, fun id => (h'.cursors id).trans (h.cursors id)⟩

theorem release (s : Source) (id : CursorId) : s.SeatsAlike (s.release id) where
  nextCursor := (s.touches_release id).nextCursor
  cursors := by
    intro j
    rw [get?_release]
    split <;> simp

theorem fetch (s : Source) (id : CursorId) : s.SeatsAlike (s.fetch id).2 where
  nextCursor := (s.touches_fetch id).nextCursor
  cursors := by
    intro j
    rcases s.fetch_cases id with ⟨_, he⟩ | ⟨_, _, _, he⟩ | ⟨_, _, _, he⟩ <;> rw [he]
    rw [Roster.get?_modify]
    split <;> simp

theorem next (s : Source) (id : CursorId) : s.SeatsAlike (s.next id).2 :=
  (release s id).trans (fetch (s.release id) id)

end Source.SeatsAlike

namespace Reader
variable {rd next : Reader} {s t : Source}

theorem seats_fill? (h : rd.fill? s = some (next, t)) :
    next.cursor = rd.cursor ∧ s.SeatsAlike t := by
  unfold fill? at h
  split at h
  · have hseats := Source.SeatsAlike.next s rd.cursor
    cases hn : s.next rd.cursor with
    | mk f u =>
      rw [hn] at hseats
      cases f with
      | wait => simp [hn] at h
      | done =>
        simp only [hn, Option.some.injEq, Prod.mk.injEq] at h
        exact ⟨by rw [h.1], h.2 ▸ hseats⟩
      | span data =>
        simp only [hn, Option.some.injEq, Prod.mk.injEq] at h
        exact ⟨by rw [← h.1], h.2 ▸ hseats⟩
  · cases h
    exact ⟨rfl, Source.SeatsAlike.refl s⟩

theorem seats_consume (rd : Reader) (n : Nat) (s : Source) :
    (rd.consume n s).1.cursor = rd.cursor ∧ s.SeatsAlike (rd.consume n s).2 := by
  refine ⟨rfl, ?_⟩
  unfold consume
  dsimp only
  split
  · exact Source.SeatsAlike.release s rd.cursor
  · exact Source.SeatsAlike.refl s

theorem seats_act? {call : Call} (h : call.act? rd s = some (next, t)) :
    next.cursor = rd.cursor ∧ s.SeatsAlike t := by
  cases call with
  | fill => exact seats_fill? h
  | consume n =>
    cases h
    exact rd.seats_consume n s
  | read n =>
    simp only [Call.act?, read?] at h
    cases hf : rd.fill? s with
    | none => simp [hf] at h
    | some p =>
      obtain ⟨filled, u⟩ := p
      obtain ⟨hcursor, hseats⟩ := seats_fill? hf
      simp only [hf, Option.map_some, Option.some.injEq] at h
      obtain ⟨hc, hs⟩ := filled.seats_consume (min n filled.pending) u
      rw [h] at hc hs
      exact ⟨hc.trans hcursor, hseats.trans hs⟩
  | chunk =>
    simp only [Call.act?, chunk?] at h
    cases hf : rd.fill? s with
    | none => simp [hf] at h
    | some p =>
      obtain ⟨filled, u⟩ := p
      obtain ⟨hcursor, hseats⟩ := seats_fill? hf
      simp only [hf] at h
      split at h
      · cases h
        exact ⟨hcursor, hseats⟩
      · cases h
        exact ⟨hcursor, hseats.trans (Source.SeatsAlike.release u _)⟩

end Reader

theorem Feed.seats_step? {f g : Feed} (h : f.step? = some g) : f.source.SeatsAlike g.source := by
  unfold Feed.step? at h
  split at h
  · split at h
    · cases h
    · rename_i span s hs
      cases h
      unfold Source.reserve? at hs
      split at hs
      · cases hs
        exact ⟨rfl, fun _ => rfl⟩
      · cases hs
  · split at h
    · cases h
    · cases h
      exact Source.SeatsAlike.refl f.source
    · cases h
      exact ⟨by simp, fun _ => by simp⟩

end MediaRelay
