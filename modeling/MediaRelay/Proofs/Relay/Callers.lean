import MediaRelay.Proofs.Relay.Offers
import MediaRelay.Proofs.Relay.Seats

/-! # Calls step by step

A call for a stream looks for a source to join. If there is none, it starts an input, opens a source
for it, and has the source listed. Each of these steps is one of its own, and between them anything
else may happen at the relay.

Here are two callers who ask for streams under one key. As long as nobody else opens a connection
under the key and nothing is disturbed, whatever else happens lists at most what one of the two has
asked for, and leaves everything else alone that the callers look at.
-/
namespace MediaRelay

inductive Party where
  | first
  | second
deriving DecidableEq

namespace Party
variable {p q : Party}

def rival : Party → Party
  | .first => .second
  | .second => .first

@[simp] theorem rival_rival (p : Party) : p.rival.rival = p := by cases p <;> rfl

@[simp] theorem rival_ne (p : Party) : p.rival ≠ p := by cases p <;> decide

theorem eq_rival_of_ne (h : q ≠ p) : q = p.rival := by
  cases p <;> cases q <;> first | rfl | exact absurd rfl h

end Party

/-- Someone who asks for a stream, and what will be started if there is none to join. -/
structure Caller where
  name : String
  request : Request
  input : Input

/-- How far a call has come. -/
inductive Caller.Stage where
  | asking
  /-- There was no source to join. -/
  | missed
  /-- The input has been started. -/
  | started
  | opened (l : Listener)
  /-- The thread has been asked to list the source. -/
  | waiting (l : Listener)
  | listed (l : Listener)
  | joined (l : Listener)

namespace Caller.Stage

/-- The steps that the caller has taken. -/
def steps : Stage → Nat
  | .asking => 0
  | .missed => 1
  | .started => 2
  | .opened _ => 3
  | _ => 4

/-- The listener with which the call has returned. -/
def returned? : Stage → Option Listener
  | .listed l => some l
  | .joined l => some l
  | _ => none

def listener? : Stage → Option Listener
  | .opened l => some l
  | .waiting l => some l
  | s => s.returned?

/-- The source that the caller has opened for itself. -/
def own? : Stage → Option SourceId
  | .opened l => some l.source
  | .waiting l => some l.source
  | .listed l => some l.source
  | _ => none

def waiting? : Stage → Option SourceId
  | .waiting l => some l.source
  | _ => none

def listed? : Stage → Option SourceId
  | .listed l => some l.source
  | _ => none

def joined? : Stage → Option SourceId
  | .joined l => some l.source
  | _ => none

/-- The inputs that the caller has started. -/
def inputs : Stage → Nat
  | .asking => 0
  | .missed => 0
  | .joined _ => 0
  | _ => 1

/-- The inputs that the caller starts next. -/
def starting : Stage → Nat
  | .missed => 1
  | _ => 0

/-- The thread has listed a source; this is the answer to the caller who waits for it. -/
def answered (listed : Option SourceId) : Stage → Stage
  | .waiting l => if listed = some l.source then .listed l else .waiting l
  | s => s

variable {s : Stage} {k : SourceId}

theorem own?_of_waiting? (h : s.waiting? = some k) : s.own? = some k := by
  cases s <;> first | exact h | cases h

theorem exists_listener_of_own? (h : s.own? = some k) :
    ∃ l, s.listener? = some l ∧ l.source = k := by
  cases s with
  | opened l => exact ⟨l, rfl, Option.some.inj h⟩
  | waiting l => exact ⟨l, rfl, Option.some.inj h⟩
  | listed l => exact ⟨l, rfl, Option.some.inj h⟩
  | _ => cases h

theorem eq_asking_of_steps (h : s.steps = 0) : s = .asking := by
  cases s <;> first | rfl | cases h

theorem listener?_of_returned? {l : Listener} (h : s.returned? = some l) :
    s.listener? = some l := by
  cases s <;> first | exact h | cases h

theorem exists_of_waiting? (h : s.waiting? = some k) : ∃ l, s = .waiting l ∧ l.source = k := by
  cases s with
  | waiting l => exact ⟨l, rfl, Option.some.inj h⟩
  | _ => cases h

theorem exists_of_listed? (h : s.listed? = some k) : ∃ l, s = .listed l ∧ l.source = k := by
  cases s with
  | listed l => exact ⟨l, rfl, Option.some.inj h⟩
  | _ => cases h

theorem answered_none (s : Stage) : s.answered none = s := by
  cases s with
  | waiting l => simp [answered]
  | _ => rfl

theorem answered_of_ne (h : s.own? ≠ some k) : s.answered (some k) = s := by
  cases s with
  | waiting l => exact if_neg fun hk => h hk.symm
  | _ => rfl

theorem steps_answered (s : Stage) (listed : Option SourceId) :
    (s.answered listed).steps = s.steps := by
  cases s with
  | waiting l =>
    simp only [answered]
    split <;> rfl
  | _ => rfl

theorem joined?_answered (s : Stage) (listed : Option SourceId) :
    (s.answered listed).joined? = s.joined? := by
  cases s with
  | waiting l =>
    simp only [answered]
    split <;> rfl
  | _ => rfl

end Caller.Stage

/-- One step of a call: to look for a source to join, and if there is none, to start an input, to
open a source for it, and to have the source listed. -/
def Caller.step (c : Caller) (r : Relay) : Caller.Stage → Caller.Stage × Relay
  | .asking =>
    match r.tryAttach c.request c.name with
    | .ok (l, joined) => (.joined l, joined)
    | .error _ => (.missed, r)
  | .missed => (.started, r.enter .started)
  | .started =>
    match r.manager with
    | none => (.started, r)
    | some m =>
      let (k, opened) := r.openSource m.settings.sizing c.input false
      match opened.join? k c.name with
      | none => (.started, r)
      | some (l, joined) => (.opened l, joined)
  | .opened l => (.waiting l, r.ask fun m => .add m c.request l.source)
  | s => (s, r)

/-- A relay with two callers, and the number of inputs that they have started. -/
structure Rivals where
  relay : Relay
  stage : Party → Caller.Stage := fun _ => .asking
  inputs : Nat := 0

/-- One of the two goes on, or something else happens at the relay. -/
inductive Rivals.Act where
  | go (p : Party)
  | other (v : Move)

def Rivals.Act.isGo (p : Party) : Rivals.Act → Bool
  | .go q => q = p
  | .other _ => false

/-- An addition of one more connection under a key is asked for. -/
def Move.asksFor (key : OutputKey) : Move → Bool
  | .add _ request => request.key = key
  | _ => false

/-- The source that is listed under a key in a move, if one is. -/
def Relay.listedIn? (r : Relay) (key : OutputKey) (v : Move) : Option SourceId :=
  (r.served? (.move v)).bind fun served => r.lists? key served.1

namespace Rivals

def start (c : Settings) (catalog : Catalog) (deeds : List Deed) : Rivals :=
  { relay := Relay.runDeeds c catalog deeds }

def act (caller : Party → Caller) (x : Rivals) : Act → Rivals
  | .go p =>
    let (s, r) := (caller p).step x.relay (x.stage p)
    { relay := r
      stage := fun q => if q = p then s else x.stage q
      inputs := x.inputs + (x.stage p).starting }
  | .other v =>
    { x with
      relay := x.relay.make v
      stage := fun p => (x.stage p).answered (x.relay.listedIn? (caller p).request.key v) }

def run (caller : Party → Caller) (x : Rivals) (acts : List Act) : Rivals :=
  acts.foldl (act caller) x

/-- Nobody else opens a connection under the key, and nothing is disturbed. -/
def Calm (key : OutputKey) (x : Rivals) : Act → Prop
  | .go _ => True
  | .other v => v.asksFor key = false ∧ x.relay.Undisturbed (x.relay.make v)

instance (key : OutputKey) (x : Rivals) : (a : Act) → Decidable (x.Calm key a)
  | .go _ => isTrue trivial
  | .other _ => inferInstanceAs (Decidable (_ ∧ _))

def CalmRun (caller : Party → Caller) (key : OutputKey) : Rivals → List Act → Prop
  | _, [] => True
  | x, a :: rest => x.Calm key a ∧ CalmRun caller key (x.act caller a) rest

instance decidableCalmRun (caller : Party → Caller) (key : OutputKey) :
    (x : Rivals) → (acts : List Act) → Decidable (CalmRun caller key x acts)
  | _, [] => isTrue trivial
  | x, a :: rest =>
    have := decidableCalmRun caller key (x.act caller a) rest
    inferInstanceAs (Decidable (_ ∧ _))

/-- One of the two looks for a source when the connection of the other is listed. -/
def Late (caller : Party → Caller) (x : Rivals) (acts : List Act) : Prop :=
  ∃ p front back l, acts = front ++ .go p :: back ∧
    (x.run caller front).stage p = .asking ∧ (x.run caller front).stage p.rival = .listed l

end Rivals

/-! ## What the callers see of the relay -/

namespace Relay
variable {r s t : Relay} {key : OutputKey} {k : SourceId} {l : Listener} {name : String}

/-- A listener's cursor is at its source, which has the start of its stream. -/
structure Secure (r : Relay) (l : Listener) : Prop where
  opened : r.isOpen l.source = true
  seated : r.isSeated l.source l.reader.cursor = true
  issued : l.source < r.nextSource

namespace Secure

theorem undisturbed (h : r.Secure l) (hu : r.Undisturbed s) (hnext : r.nextSource ≤ s.nextSource) :
    s.Secure l := by
  obtain ⟨c, hc, hcursor⟩ := (Option.any_eq_true _ _).mp h.seated
  have hmem : (l.source, c) ∈ r.channels.entries :=
    (r.channels.get?_eq_some_iff l.source c).mp hc
  refine ⟨hu.starts l.source ?_ h.opened, hu.cursors _ hmem _ ?_, Nat.lt_of_lt_of_le h.issued hnext⟩
  · exact (r.channels.mem_ids_iff l.source).mpr (by simp [hc])
  · exact (c.feed.source.cursors.mem_ids_iff _).mpr hcursor

theorem of_eq (h : r.Secure l) (hchannels : s.channels = r.channels)
    (hnext : s.nextSource = r.nextSource) : s.Secure l :=
  ⟨by rw [isOpen, hchannels]; exact h.opened, by rw [isSeated, hchannels]; exact h.seated,
    by rw [hnext]; exact h.issued⟩

theorem openSource (h : r.Secure l) (z : Sizing) (i : Input) (owned : Bool) :
    (r.openSource z i owned).2.Secure l := by
  have hne : l.source ≠ r.nextSource := Nat.ne_of_lt h.issued
  have hsame : (r.openSource z i owned).2.channels.get? l.source = r.channels.get? l.source :=
    (r.channels.get?_put r.nextSource l.source _).trans (if_neg hne)
  exact ⟨by rw [isOpen, hsame]; exact h.opened, by rw [isSeated, hsame]; exact h.seated,
    Nat.lt_succ_of_lt h.issued⟩

theorem join? {new : Listener} (h : r.Secure l) (hj : r.join? k name = some (new, s)) :
    s.Secure l := by
  obtain ⟨c, hjoined⟩ := joined_of_join? hj
  exact ⟨hjoined.any_channel id h.opened,
    hjoined.any_channel (fun hi => (hasCursor_seating c _).mpr (Or.inr hi)) h.seated,
    by rw [hjoined.nextSource]; exact h.issued⟩

theorem new (hj : r.join? k name = some (l, s)) (hk : k < r.nextSource) : s.Secure l := by
  obtain ⟨c, hjoined⟩ := joined_of_join? hj
  have hjoins := join?_joins hj
  have hopened : r.isOpen k = true := by
    cases ho : r.isOpen k with
    | true => rfl
    | false =>
      rw [(join?_eq_none_iff name).mpr ho] at hj
      cases hj
  obtain ⟨d, hd, hcursor⟩ := hjoins.cursor
  refine ⟨?_, ?_, ?_⟩
  · rw [hjoins.source, isOpen, hjoined.channels, if_pos rfl]
    rw [isOpen, hjoined.before] at hopened
    exact hopened
  · rw [hjoins.source, isSeated, hd, Option.any_some, Roster.contains, hcursor]
    rfl
  · rw [hjoins.source, hjoined.nextSource]
    exact hk

end Secure

theorem join?_of_tryAttach {request : Request} (h : r.tryAttach request name = .ok (l, s)) :
    r.join? l.source name = some (l, s) := by
  unfold tryAttach at h
  split at h
  · cases h
  · split at h
    · cases h
    · rename_i hj
      cases h
      rw [(join?_joins hj).source]
      exact hj

theorem served?_post (hidle : r.agenda.queue = []) (hrunning : r.agenda.stopped = false)
    (t : Task) : (r.post t).served? (.move .run) = some (t, r.agenda) := by
  have hqueue : { r.agenda with queue := [] } = r.agenda := by rw [← hidle]
  simp only [served?, post, Agenda.post_of_running hrunning, Agenda.next?, hidle,
    List.nil_append, hqueue]

theorem drain_of_idle (h : r.agenda.queue = []) : r.drain = r := by
  unfold drain runAll
  cases r.workload with
  | zero => rfl
  | succ n => simp [runUpTo, runNext?, Agenda.next?, h]

theorem make_run_post (hidle : r.agenda.queue = []) (hrunning : r.agenda.stopped = false)
    (t : Task) : (r.post t).make .run = r.perform t := by
  have hagenda : { r.post t with agenda := r.agenda } = r := rfl
  exact (enact_of_served (served?_post hidle hrunning t)).trans (by rw [hagenda])

theorem exists_join?_openSource (r : Relay) (z : Sizing) (i : Input) (owned : Bool)
    (name : String) :
    ∃ l s, (r.openSource z i owned).2.join? r.nextSource name = some (l, s) := by
  have hnew : (r.openSource z i owned).2.channels.get? r.nextSource =
      some { feed := .start z i, owned := owned } := (r.channels.get?_put _ _ _).trans (if_pos rfl)
  exact ⟨_, _, join?_of_start hnew rfl name⟩

/-- At most one connection is listed under the key; apart from that, nothing has changed that the
callers look at. -/
structure Serves (r : Relay) (key : OutputKey) (listed : Option SourceId) (s : Relay) : Prop where
  managed : ∀ m, s.isManagedBy m = r.isManagedBy m
  stopped : s.agenda.stopped = r.agenda.stopped
  hung : s.Hung
  secure : ∀ l, r.Secure l → s.Secure l
  offers : ∀ k, (∃ id, s.registry.Offers key id k) ↔
    listed = some k ∨ ∃ id, r.registry.Offers key id k
  serving : s.registry.serving key = r.registry.serving key + listed.toList.length
  pending : r.pending key = listed.toList ++ s.pending key

namespace Serves

theorem aside {P : Task → Prop} (hr : r.Hung) (h : Aside P r s)
    (hasked : ∀ u, P u → r.lists? key u = none) (hsecure : ∀ l, r.Secure l → s.Secure l) :
    Serves r key none s := by
  obtain ⟨ts, hqueue, hts⟩ := (h.appends hr).queue
  have hregistry : s.registry = r.registry := by rw [registry, h.manager, ← registry]
  have hmanaged : ∀ m, s.isManagedBy m = r.isManagedBy m :=
    isManagedBy_of_id (by rw [h.manager])
  refine
    { managed := hmanaged
      stopped := (h.appends hr).stopped
      hung := (h.appends hr).hung
      secure := hsecure
      offers := by simp [hregistry]
      serving := by simp [hregistry]
      pending := ?_ }
  refine (pending_append hmanaged hqueue fun u hu => ?_).symm
  rcases hts u hu with hhangs | hu
  · exact lists?_of_hangs hhangs
  · exact hasked u hu

theorem enter (hr : r.Hung) (key : OutputKey) (e : Entry) : Serves r key none (r.enter e) where
  managed := fun _ => rfl
  stopped := rfl
  hung := ⟨hr.sources, hr.timers⟩
  secure := fun _ hl => hl.of_eq rfl rfl
  offers := by simp [Relay.enter, registry]
  serving := rfl
  pending := rfl

theorem perform (hr : r.Hung) {t : Task} {a : Agenda Task} (ht : r.Taken t a)
    (hu : r.Undisturbed ({ r with agenda := a }.perform t)) :
    Serves r key (r.lists? key t) ({ r with agenda := a }.perform t) := by
  let q : Relay := { r with agenda := a }
  have hq : q.Hung := ht.hung hr
  have happends := announces_perform q t hq
  obtain ⟨ts, hqueue, hts⟩ := happends.queue
  obtain ⟨_, hturned⟩ := q.turned_perform t
  have hmanaged : ∀ m, (q.perform t).isManagedBy m = q.isManagedBy m :=
    isManagedBy_of_id hturned.manager
  have halike : (q.listedBy t).Alike (q.perform t).registry :=
    alike_perform t ⟨hu.ids, hu.newest, hu.retained, hu.starts, hu.cursors⟩
  have hlists : q.lists? key = r.lists? key := lists?_of_managed fun _ => rfl
  refine
    { managed := hmanaged
      stopped := happends.stopped.trans ht.stopped
      hung := happends.hung
      secure := fun l hl => hl.undisturbed hu (Nat.le_of_eq (q.nextSource_perform t).symm)
      offers := ?_
      serving := ?_
      pending := ?_ }
  · intro k
    have hoffers : (∃ id, (q.perform t).registry.Offers key id k) ↔
        ∃ id, (q.listedBy t).Offers key id k :=
      exists_congr fun id => halike.offers_iff
    rw [hoffers, q.offers_listedBy t, hlists]
    rfl
  · rw [halike.serving, q.serving_listedBy t, hlists]
    rfl
  · have hpending : (q.perform t).pending key = q.pending key := by
      refine pending_append hmanaged hqueue fun u hu => ?_
      rcases hts u hu with hhangs | rfl
      · exact lists?_of_hangs hhangs
      · rfl
    rw [hpending, ht.pending hr key]

theorem other (hr : r.Hung) {v : Move} (hv : v.asksFor key = false)
    (hu : r.Undisturbed (r.make v)) : Serves r key (r.listedIn? key v) (r.make v) := by
  cases hserved : r.served? (.move v) with
  | none =>
    have haside := aside_make hserved
    rw [listedIn?, hserved, Option.bind_none]
    refine aside hr haside ?_ fun l hl => hl.undisturbed hu haside.later.nextSource
    intro u hasked
    cases hasked with
    | add =>
      have hkey := of_decide_eq_false hv
      simp [lists?, hkey]
    | _ => rfl
  | some served =>
    have hmake : r.make v = { r with agenda := served.2 }.perform served.1 :=
      enact_of_served (d := .move v) hserved
    rw [hmake] at hu
    rw [listedIn?, hserved, Option.bind_some, hmake]
    exact perform hr (taken_of_served hserved) hu

end Serves

end Relay

theorem Caller.step_missed (c : Caller) (r : Relay) :
    c.step r .missed = (.started, r.enter .started) := rfl

theorem Caller.step_opened (c : Caller) (r : Relay) (l : Listener) :
    c.step r (.opened l) = (.waiting l, r.ask fun m => .add m c.request l.source) := rfl

theorem Caller.step_started (c : Caller) {r : Relay} {m : Manager} (hm : r.manager = some m) :
    ∃ l opened, (r.openSource m.settings.sizing c.input false).2.join? r.nextSource c.name =
        some (l, opened) ∧
      c.step r .started = (.opened l, opened) := by
  obtain ⟨l, opened, hj⟩ := r.exists_join?_openSource m.settings.sizing c.input false c.name
  have hnew : (r.openSource m.settings.sizing c.input false).1 = r.nextSource := rfl
  exact ⟨l, opened, hj, by simp only [Caller.step, hm, hnew, hj]⟩

end MediaRelay
