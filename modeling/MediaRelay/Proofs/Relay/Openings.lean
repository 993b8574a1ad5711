import MediaRelay.Proofs.Relay.Solo

/-! # A call that opens a connection

A call for a stream goes step by step: it looks for a source to join, and if there is none, it
starts an input, opens a source for it, and has the thread list the source. The input may fail to
start, the system may have no thread for a producer, and the manager's thread may be stopped before
it is asked or before it comes to the task; then the call lets go of its source, waits for the
producer to come back from its read, and fails. Between the steps anything else may happen at the
relay.
-/
namespace MediaRelay

/-- Someone who asks for a stream, and what comes of starting an input for it. -/
structure Opener where
  name : String
  request : Request
  start : Except InputFailure Input
  /-- Why the system has no thread for a producer, if it has none. -/
  refusal : Option InputFailure := none
  /-- The call is made on the manager's thread itself, which need not be asked then. -/
  onThread : Bool := false

namespace Opener

inductive Stage where
  | asking
  /-- There was no source to join. -/
  | missed
  | started (i : Input)
  | opened (l : Listener)
  /-- The thread has been asked to list the source. -/
  | waiting (l : Listener)
  /-- The thread runs no tasks any more. -/
  | refused (l : Listener)
  /-- The source that the call has opened is gone, and its producer is to stop. -/
  | closing (k : SourceId) (f : Feed)
  | shared (l : Listener)
  | listed (l : Listener)
  /-- The call has failed, and the source that it had opened, if any, has been let go. -/
  | failed (e : Failure) (gone : Option SourceId)

namespace Stage

def result? : Stage → Option (Except Failure Listener)
  | .shared l => some (.ok l)
  | .listed l => some (.ok l)
  | .failed e _ => some (.error e)
  | _ => none

/-- The listener of a source that the call has opened, as long as nobody else knows of it. -/
def own? : Stage → Option Listener
  | .opened l => some l
  | .waiting l => some l
  | .refused l => some l
  | _ => none

def starting : Stage → Nat
  | .missed => 1
  | _ => 0

def starts : Stage → Nat
  | .asking => 0
  | .missed => 0
  | .shared _ => 0
  | _ => 1

/-- The steps that are left to the call at most, apart from those on which it waits. -/
def toGo : Stage → Nat
  | .asking => 7
  | .missed => 6
  | .started _ => 5
  | .opened _ => 4
  | .waiting _ => 3
  | .refused _ => 2
  | .closing _ _ => 1
  | _ => 0

/-- The call has to wait, for the thread or for the producer of the source that it closes. -/
def Waits (r : Relay) : Stage → Prop
  | .waiting _ => r.agenda.stopped = false
  | .closing _ f => f.source.reserved.isSome = true
  | _ => False

/-- The thread has listed a source; this is the answer to the call if it waits for it. -/
def answered (listed : Option SourceId) : Stage → Stage
  | .waiting l => if listed = some l.source then .listed l else .waiting l
  | s => s

/-- A producer goes on, or comes to have something to read; it may be that of the source that the
call closes. -/
def supplied (d : Deed) : Stage → Stage
  | .closing k f =>
    match d with
    | .move (.produce j) => .closing k (if j = k then f.step?.getD f else f)
    | .move (.feed j items) =>
      .closing k (if j = k then { f with input := f.input.feed items } else f)
    | _ => .closing k f
  | s => s

theorem supplied_cases (s : Stage) (d : Deed) :
    s.supplied d = s ∨ ∃ k f g, s = .closing k f ∧ s.supplied d = .closing k g := by
  cases s with
  | closing k f =>
    have hfeed : ∃ g, (closing k f).supplied d = .closing k g := by
      simp only [supplied]
      split <;> exact ⟨_, rfl⟩
    obtain ⟨g, hg⟩ := hfeed
    exact Or.inr ⟨k, f, g, rfl, hg⟩
  | _ => exact Or.inl rfl

theorem starts_supplied (s : Stage) (d : Deed) : (s.supplied d).starts = s.starts := by
  rcases s.supplied_cases d with he | ⟨_, _, _, rfl, he⟩ <;> rw [he]
  rfl

end Stage

def step (o : Opener) (r : Relay) : Stage → Stage × Relay
  | .asking =>
    match r.tryAttach o.request o.name with
    | .ok (l, joined) => (.shared l, joined)
    | .error _ => (.missed, r)
  | .missed =>
    match o.start with
    | .error cause => (.failed (.input cause) none, r.enter .started)
    | .ok i => (.started i, r.enter .started)
  | .started i =>
    match r.manager with
    | none => (.started i, r)
    | some m =>
      match r.openSource? m.settings.sizing i false o.refusal with
      | .error cause => (.failed (.input cause) none, r)
      | .ok (k, opened) =>
        match opened.join? k o.name with
        | none => (.failed (.input .attachRefused) none, r)
        | some (l, joined) => (.opened l, joined)
  | .opened l =>
    match r.manager with
    | none => (.opened l, r)
    | some m =>
      if o.onThread then (.listed l, r.perform (.add m.id o.request l.source))
      else if r.agenda.stopped then (.refused l, r)
      else (.waiting l, r.post (.add m.id o.request l.source))
  | .waiting l => if r.agenda.stopped then (.refused l, r) else (.waiting l, r)
  | .refused l =>
    let left := r.leave o.name
    match r.channels.get? l.source, left.channels.get? l.source with
    | some c, none => (.closing l.source c.feed.halt, left)
    | _, _ => (.failed .schedulerStopped none, left)
  | .closing k f =>
    if f.source.reserved.isSome then (.closing k f, r)
    else (.failed .schedulerStopped (some k), r)
  | s => (s, r)

end Opener

/-- A relay with a call under way, and the number of inputs that the call has started. -/
structure Opening where
  relay : Relay
  stage : Opener.Stage := .asking
  starts : Nat := 0

/-- The call goes on, or something else happens at the relay. -/
inductive Opening.Act where
  | go
  | other (d : Deed)

namespace Opening

def act (o : Opener) (x : Opening) : Act → Opening
  | .go =>
    let (s, r) := o.step x.relay x.stage
    { relay := r, stage := s, starts := x.starts + x.stage.starting }
  | .other d =>
    { x with
      relay := x.relay.enact d
      stage := (x.stage.answered (x.relay.listing? d)).supplied d }

def run (o : Opener) (x : Opening) (acts : List Act) : Opening := acts.foldl (act o) x

/-- Others do not act in the name of the call's listener, nor do they reach its source as long as
the call alone knows of it; and who subscribes asks for nothing when told. -/
def Heeds (o : Opener) (x : Opening) : Act → Prop
  | .go => True
  | .other d => d.meddles o.name (x.stage.own?.map Listener.source) = false ∧
      ∀ s, d = .move (.subscribe s) → s.Quiet

def HeedRun (o : Opener) : Opening → List Act → Prop
  | _, [] => True
  | x, a :: rest => x.Heeds o a ∧ HeedRun o (x.act o a) rest

def start (c : Settings) (catalog : Catalog) (deeds : List Deed) : Opening :=
  { relay := Relay.runDeeds c catalog deeds }

end Opening

/-! ## Subscribers who ask for nothing -/

namespace Relay
variable {r s : Relay}

/-- Those who are subscribed ask for nothing when told, and those who will be by what is queued. -/
structure Hushed (r : Relay) : Prop where
  subscribed : ∀ s ∈ r.registry.subscribers.values, s.Quiet
  queued : ∀ t ∈ r.agenda.queue, t.Calm

theorem subscribers_perform (hr : ∀ s ∈ r.registry.subscribers.values, s.Quiet) {t : Task}
    (ht : t.Calm) : (r.perform t).registry.subscribers = (r.resubscribed t).subscribers := by
  cases hn : r.sizeAfter? t with
  | none => exact (untold_perform "" hn ht).subscribers
  | some n =>
    have hsame : r.resubscribed t = r.registry := by
      cases t with
      | subscribe m s => cases hn
      | unsubscribe m id => cases hn
      | _ => rfl
    rw [hsame]
    exact (told_perform hr hn).subscribers

theorem quiet_unsubscribe {g : Registry} (hg : ∀ s ∈ g.subscribers.values, s.Quiet)
    (id : SubscriberId) : ∀ s ∈ (g.unsubscribe id).subscribers.values, s.Quiet := by
  intro s hs
  obtain ⟨i, hi⟩ := ((g.unsubscribe id).subscribers.mem_values_iff s).mp hs
  simp only [Registry.unsubscribe, Roster.get?_erase, Option.ite_none_left_eq_some] at hi
  exact hg s ((g.subscribers.mem_values_iff s).mpr ⟨i, hi.2⟩)

theorem quiet_resubscribed (hr : ∀ s ∈ r.registry.subscribers.values, s.Quiet) {t : Task}
    (ht : t.Calm) : ∀ s ∈ (r.resubscribed t).subscribers.values, s.Quiet := by
  cases t with
  | subscribe m s =>
    simp only [resubscribed]
    split
    · intro u hu
      obtain ⟨i, hi⟩ := ((r.registry.subscribe s).subscribers.mem_values_iff u).mp hu
      simp only [Registry.subscribe, Roster.get?_put] at hi
      split at hi
      · cases hi
        exact ht
      · exact hr u ((r.registry.subscribers.mem_values_iff u).mpr ⟨i, hi⟩)
    · exact hr
  | unsubscribe m id =>
    simp only [resubscribed]
    split
    · exact quiet_unsubscribe hr id
    · exact hr
  | _ => exact hr

namespace Hushed

theorem perform (h : r.Hushed) (hung : r.Hung) {t : Task} (ht : t.Calm) :
    (r.perform t).Hushed := by
  obtain ⟨_, _, ts, hqueue, hts⟩ := announces_perform r t hung
  refine ⟨?_, ?_⟩
  · rw [subscribers_perform h.subscribed ht]
    exact quiet_resubscribed h.subscribed ht
  · rw [hqueue]
    intro u hu
    rcases List.mem_append.mp hu with hu | hu
    · exact h.queued u hu
    · rcases hts u hu with hhangs | rfl
      · exact Task.calm_of_hangs hhangs
      · trivial

theorem enact (h : r.Hushed) (hung : r.Hung) {d : Deed}
    (hd : ∀ s, d = .move (.subscribe s) → s.Quiet) : (r.enact d).Hushed := by
  cases hserved : r.served? d with
  | some served =>
    obtain ⟨t, a⟩ := served
    have htaken := taken_of_served hserved
    have hcalm : t.Calm := by
      rcases htaken.mem_or_hangs hung with hqueue | hhangs
      · exact h.queued t hqueue
      · exact Task.calm_of_hangs hhangs
    have hwithout : Hushed { r with agenda := a } :=
      ⟨h.subscribed, fun u hu => h.queued u (htaken.queue hu)⟩
    rw [enact_of_served hserved]
    exact hwithout.perform (htaken.hung hung) hcalm
  | none =>
    cases hoverrides : Deed.overrides d with
    | false =>
      have haside := aside_enact hserved hoverrides
      obtain ⟨_, _, ts, hqueue, hts⟩ := haside.appends hung
      refine ⟨?_, ?_⟩
      · rw [registry, haside.manager, ← registry]
        exact h.subscribed
      · rw [hqueue]
        intro u hu
        rcases List.mem_append.mp hu with hu | hu
        · exact h.queued u hu
        · rcases hts u hu with hhangs | hasks
          · exact Task.calm_of_hangs hhangs
          · exact calm_of_asks hd hasks
    | true =>
      cases d with
      | stop =>
        refine ⟨h.subscribed, ?_⟩
        intro t ht
        cases ht
      | strike id =>
        simp only [Relay.enact]
        split
        · refine ⟨?_, h.queued⟩
          rcases r.registry_updateRegistry_cases (·.unsubscribe id) with he | he <;> rw [he]
          · exact h.subscribed
          · exact quiet_unsubscribe h.subscribed id
        · exact h
      | _ => cases hoverrides

theorem foldl (h : r.Hushed) (hung : r.Hung) {deeds : List Deed}
    (hd : ∀ s, .move (.subscribe s) ∈ deeds → s.Quiet) : (deeds.foldl Relay.enact r).Hushed := by
  induction deeds generalizing r with
  | nil => exact h
  | cons d rest ih =>
    refine ih (h.enact hung ?_) (hung.enact d) fun s hs => hd s (List.mem_cons_of_mem _ hs)
    rintro s rfl
    exact hd s List.mem_cons_self

theorem start (c : Settings) (catalog : Catalog) : (runDeeds c catalog []).Hushed := by
  refine ⟨?_, ?_⟩
  · intro s hs
    cases hs
  · intro t ht
    cases ht

end Hushed

end Relay
end MediaRelay
