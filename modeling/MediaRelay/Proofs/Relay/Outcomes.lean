import MediaRelay.Proofs.Relay.Offers
import MediaRelay.Proofs.Relay.Openings

/-! # What comes of opening a connection

A call that opens a connection returns in one of three ways. It has joined a source that was there,
or it has opened one, which the thread has listed once, or it has failed and leaves no trace. Until
then it is sound: whoever acts, what the call relies on is still there, and nobody else can tell
what it does.
-/
namespace MediaRelay

/-! ## The three ways -/

/-- The one thing that the thread does for a call: the source is listed under the next id, with the
key of the request, and retained, while its listener is still at the start. A thread that has been
stopped does so only for itself. -/
structure Opener.Lists (o : Opener) (l : Listener) (r s : Relay) : Prop where
  running : o.onThread = false → r.agenda.stopped = false
  lastId : s.registry.lastId = r.registry.lastId + 1
  listed : ∃ n, s.registry.connections.entries =
      r.registry.connections.entries ++ [(r.registry.lastId + 1, n)] ∧
    n.key = o.request.key ∧ n.source = l.source
  retained : s.registry.retained.entries =
    r.registry.retained.entries ++ [(r.registry.lastId + 1, l.source)]
  listener : s.listeners.get? o.name = some l
  seated : ∃ c, s.channels.get? l.source = some c ∧
    c.feed.source.cursors.get? l.reader.cursor = some ⟨0, 0⟩
  asked : s.asking l.source = []

/-- The source that a call has opened is gone with its only listener, and nobody will list it. -/
structure Opener.Gone (o : Opener) (first : SourceId) (k : SourceId) (r : Relay) : Prop where
  stopped : r.agenda.stopped = true
  listener : r.listeners.get? o.name = none
  new : first ≤ k ∧ k < r.nextSource
  channel : r.channels.get? k = none
  unretained : ∀ id, r.registry.retained.get? id ≠ some k
  asked : r.asking k = []

/-- A call fails because its input does not start, because the system has no thread for a producer,
or because the manager's thread has been stopped. -/
inductive Opener.Fails (o : Opener) (first : SourceId) :
    Failure → Option SourceId → Relay → Relay → Prop where
  | input {cause : InputFailure} {r : Relay} : o.start = .error cause →
      Fails o first (.input cause) none r (r.enter .started)
  | refused {i : Input} {cause : InputFailure} {r : Relay} : o.start = .ok i →
      o.refusal = some cause → Fails o first (.input cause) none r r
  | stopped {i : Input} {k : SourceId} {r : Relay} : o.start = .ok i → o.Gone first k r →
      Fails o first .schedulerStopped (some k) r r

/-- A step of a call that has not been served: apart from sources and listeners, nothing changes but
that an input is started, or that the thread is asked to list the call's source. -/
structure Opener.Spares (o : Opener) (x y : Opening) : Prop where
  manager : y.relay.manager = x.relay.manager
  subscriptions : y.relay.subscriptions = x.relay.subscriptions
  journal : y.relay.journal = x.relay.journal ++ List.replicate x.stage.starting .started
  agenda : y.relay.agenda = x.relay.agenda ∨ ∃ m l, y.stage = .waiting l ∧
    y.relay.agenda = x.relay.agenda.post (.add m o.request l.source)
  nextSource : x.relay.nextSource ≤ y.relay.nextSource

/-- A step of a call: it stays where it is as long as it has to wait, and comes nearer to its end
otherwise. A source that nobody has listed is gone at once, but its producer is waited for. -/
structure Opener.Goes (o : Opener) (x y : Opening) : Prop where
  waits : x.stage.Waits x.relay → y.relay = x.relay ∧ y.stage = x.stage
  nearer : ¬x.stage.Waits x.relay → y.stage.toGo < x.stage.toGo
  parts : ∀ l, x.stage = .refused l → ∃ c, x.relay.channels.get? l.source = some c ∧
    y.stage = .closing l.source c.feed.halt ∧
    y.relay = { x.relay with
      channels := x.relay.channels.erase l.source
      listeners := x.relay.listeners.erase o.name }

/-- How a call has come to its end with an act, if it has. -/
def Opener.Ends (o : Opener) (first : SourceId) (x y : Opening) : Stage → Prop
  | .shared l => y.starts = 0 ∧ ∃ id n c, x.relay.Admits o.request o.name id n c l y.relay
  | .listed l => y.starts = 1 ∧ (∃ i, o.start = .ok i) ∧ first ≤ l.source ∧
      l.reader = { cursor := 1 } ∧ o.Lists l x.relay y.relay
  | .failed e gone => y.starts = 1 ∧ o.Fails first e gone x.relay y.relay
  | _ => True

namespace Registry
variable {g : Registry}

theorem entries_add (h : g.Kempt) (request : Request) (k : SourceId) :
    (g.add request k).connections.entries =
        g.connections.entries ++ [(g.lastId + 1, .ofRequest (g.lastId + 1) request k)] ∧
      (g.add request k).retained.entries = g.retained.entries ++ [(g.lastId + 1, k)] := by
  have hnext : g.lastId + 1 ∉ g.ids := fun hid =>
    absurd (g.issued _ hid) (Int.not_le.mpr (Int.lt_succ g.lastId))
  have hlisted : g.connections.get? (g.lastId + 1) = none := by
    refine Option.not_isSome_iff_eq_none.mp fun hsome => hnext ?_
    exact (g.connections.mem_ids_iff _).mpr hsome
  have hretained : g.retained.get? (g.lastId + 1) = none := by
    refine Option.not_isSome_iff_eq_none.mp fun hsome => hnext (h.retained _ ?_)
    exact (g.retained.mem_ids_iff _).mpr hsome
  exact ⟨Roster.entries_put_of_fresh hlisted _, Roster.entries_put_of_fresh hretained _⟩

end Registry

namespace Relay
variable {r : Relay} {l : Listener} {ts : List Task}

theorem Hosts.enact_of_nothing {name : String} (h : r.Hosts name none []) {d : Deed}
    (hd : d.meddles name none = false) : (r.enact d).Hosts name none [] := by
  by_cases hstop : d = .stop
  · subst hstop
    exact h.stop
  · exact h.enact hd hstop fun _ hl => nomatch hl

theorem Hosts.lists {o : Opener} (h : r.Hosts o.name (some l) ts) (hkempt : r.registry.Kempt)
    (hr : r.Hushed) (hasked : r.asking l.source = [])
    (hrunning : o.onThread = false → r.agenda.stopped = false) {m : Manager}
    (hm : r.manager = some m) : o.Lists l r (r.perform (.add m.id o.request l.source)) := by
  obtain ⟨c, hc, _, hcursor⟩ := (h.solo l rfl).unread
  obtain ⟨told, hperform⟩ := perform_add_of_quiet hr.subscribed hm o.request l.source
  have hlisted := listed_listing hm o.request hc
  have hregistry : (r.perform (.add m.id o.request l.source)).registry =
      r.registry.add o.request l.source := by
    rw [hperform]
    exact registry_listing hm o.request l.source
  obtain ⟨hconnections, hretained⟩ := Registry.entries_add hkempt o.request l.source
  refine
    { running := hrunning
      lastId := by rw [hregistry]; rfl
      listed := ⟨_, by rw [hregistry, hconnections], rfl, rfl⟩
      retained := by rw [hregistry, hretained]
      listener := ?_
      seated := ?_
      asked := ?_ }
  · rw [hperform]
    exact (congrArg (·.get? o.name) hlisted.listeners).trans h.listener
  · rw [hperform]
    exact ⟨_, (hlisted.channels l.source).trans (if_pos rfl), hcursor⟩
  · have happends := announces_perform r (.add m.id o.request l.source) h.anchored.hung
    rw [asking_of_appends happends, hasked]
    rintro _ rfl hadds
    cases hadds

end Relay

namespace Opener
variable {o : Opener} {m : ManagerId} {first : SourceId} {r : Relay} {l : Listener}
  {ts : List Task}

/-- A listener of the call is the first one at a source that has been opened for it. -/
structure Owns (o : Opener) (first : SourceId) (r : Relay) (l : Listener) (ts : List Task) :
    Prop where
  hosts : r.Hosts o.name (some l) ts
  reader : l.reader = { cursor := 1 }
  new : first ≤ l.source
  started : ∃ i, o.start = .ok i

/-- What the call relies on at each stage. A task that it has the thread asked for is lost when the
thread is stopped. -/
def Stands (o : Opener) (m : ManagerId) (first : SourceId) (r : Relay) : Stage → Prop
  | .asking => r.Hosts o.name none []
  | .missed => r.Hosts o.name none []
  | .started i => r.Hosts o.name none [] ∧ o.start = .ok i
  | .opened l => o.Owns first r l []
  | .waiting l => o.Owns first r l (if r.agenda.stopped then [] else [.add m o.request l.source])
  | .refused l => o.Owns first r l [] ∧ r.agenda.stopped = true
  | .closing k _ => r.Hosts o.name none [] ∧ (∃ i, o.start = .ok i) ∧ o.Gone first k r
  | _ => True

theorem Stands.anchored {s : Stage} (h : o.Stands m first r s) (hopen : s.result? = none) :
    r.Anchored := by
  cases s with
  | asking => exact Relay.Hosts.anchored h
  | missed => exact Relay.Hosts.anchored h
  | started i => exact h.1.anchored
  | opened l => exact Owns.hosts h |>.anchored
  | waiting l => exact Owns.hosts h |>.anchored
  | refused l => exact h.1.hosts.anchored
  | closing k f => exact h.1.anchored
  | _ => cases hopen

/-- Nobody listens to a source that is gone, nor asks for its listing. -/
theorem Gone.of_channel {k : SourceId} (h : r.Hosts o.name none [])
    (hstopped : r.agenda.stopped = true) (hnew : first ≤ k ∧ k < r.nextSource)
    (hnone : r.channels.get? k = none) : o.Gone first k r := by
  have hidle : ¬(r.Heard k ∨ r.Retained k) := by
    intro hheld
    have halive := h.anchored.alive k hheld
    rw [hnone] at halive
    cases halive
  refine ⟨hstopped, h.listener, hnew, hnone, fun id hid => hidle (Or.inr ⟨id, hid⟩), ?_⟩
  refine List.filter_eq_nil_iff.mpr fun t ht hadds => ?_
  exact hidle (Or.inl (h.anchored.asked t ht k (of_decide_eq_true hadds)))

theorem Owns.enact (h : o.Owns first r l ts) (hts : r.agenda.stopped = true → ts = []) {d : Deed}
    (hd : d.meddles o.name (some l.source) = false) (hother : r.listing? d ≠ some l.source) :
    o.Owns first (r.enact d) l (if (r.enact d).agenda.stopped then [] else ts) := by
  refine ⟨?_, h.reader, h.new, h.started⟩
  by_cases hstop : d = .stop
  · subst hstop
    exact h.hosts.stop
  · have hkept := h.hosts.enact hd hstop (by rintro _ ⟨⟩; exact hother)
    rw [Relay.stopped_enact_of_ne h.hosts.anchored.hung hstop]
    split
    · rename_i hstopped
      rw [hts hstopped] at hkept
      exact hkept
    · exact hkept

theorem Stands.enact {s : Stage} (h : o.Stands m first r s) {d : Deed}
    (hd : d.meddles o.name (s.own?.map Listener.source) = false)
    (hother : ∀ l, s.own? = some l → r.listing? d ≠ some l.source) :
    o.Stands m first (r.enact d) s := by
  cases s with
  | asking => exact Relay.Hosts.enact_of_nothing h hd
  | missed => exact Relay.Hosts.enact_of_nothing h hd
  | started i => exact ⟨h.1.enact_of_nothing hd, h.2⟩
  | opened l =>
    have hkept := Owns.enact h (fun _ => rfl) hd (hother l rfl)
    rw [ite_self] at hkept
    exact hkept
  | waiting l =>
    have hkept := Owns.enact h (fun hstopped => if_pos hstopped) hd (hother l rfl)
    cases hstopped : r.agenda.stopped with
    | true =>
      have hung := (Owns.hosts h).anchored.hung
      rw [hstopped, if_pos rfl, ite_self] at hkept
      simp only [Stands, Relay.stopped_enact hung hstopped d, if_true]
      exact hkept
    | false =>
      rw [hstopped] at hkept
      exact hkept
  | refused l =>
    have hkept := h.1.enact (fun _ => rfl) hd (hother l rfl)
    rw [ite_self] at hkept
    exact ⟨hkept, Relay.stopped_enact h.1.hosts.anchored.hung h.2 d⟩
  | closing k f =>
    obtain ⟨hosts, hstart, hgone⟩ := h
    have hkept := hosts.enact_of_nothing hd
    have hlater := r.later_enact d
    refine ⟨hkept, hstart, .of_channel hkept ?_ ⟨hgone.new.1, ?_⟩ ?_⟩
    · exact Relay.stopped_enact hosts.anchored.hung hgone.stopped d
    · exact Nat.lt_of_lt_of_le hgone.new.2 hlater.nextSource
    · exact hlater.gone k hgone.new.2 hgone.channel
  | _ => trivial

theorem Stands.supplied {s : Stage} (h : o.Stands m first r s) (d : Deed) :
    o.Stands m first r (s.supplied d) := by
  cases s with
  | closing k f =>
    simp only [Stage.supplied]
    split <;> exact h
  | _ => exact h

theorem Owns.lists {manager : Manager}
    (h : o.Owns first r l
      (if r.agenda.stopped then [] else [.add manager.id o.request l.source]))
    (hkempt : r.registry.Kempt) (hr : r.Hushed) (hm : r.manager = some manager) {d : Deed}
    (hlisting : r.listing? d = some l.source) : o.Lists l r (r.enact d) := by
  obtain ⟨⟨t, a⟩, hserved, hadds⟩ := Option.bind_eq_some_iff.mp hlisting
  have htaken := Relay.taken_of_served hserved
  have hasking := Relay.asking_of_taken h.hosts.anchored.hung htaken hadds
  have hhosts := h.hosts
  rw [(hhosts.solo l rfl).asked] at hasking
  cases hstopped : r.agenda.stopped with
  | true =>
    rw [hstopped] at hasking
    cases hasking
  | false =>
    rw [hstopped] at hasking hhosts
    obtain rfl : Task.add manager.id o.request l.source = t := (List.cons.inj hasking).1
    have hcomes := Relay.Hosts.comes hhosts htaken hadds
    have hquiet : Relay.Hushed { r with agenda := a } :=
      ⟨hr.subscribed, fun u hu => hr.queued u (htaken.queue hu)⟩
    have hlists := hcomes.lists (o := o) hkempt hquiet (hcomes.solo l rfl).asked
      (fun _ => htaken.stopped.trans hstopped) hm
    rw [Relay.enact_of_served hserved]
    exact ⟨fun _ => hstopped, hlists.lastId, hlists.listed, hlists.retained, hlists.listener,
      hlists.seated, hlists.asked⟩

theorem step_started {manager : Manager} (hm : r.manager = some manager)
    (hthread : o.refusal = none) (i : Input) :
    o.step r (.started i) = (.opened ⟨r.nextSource, { cursor := 1 }⟩,
      r.founding manager.settings.sizing i o.name) := by
  have hnew : r.openSource? manager.settings.sizing i false none =
      .ok (r.nextSource, (r.openSource manager.settings.sizing i false).2) := rfl
  simp only [step, hm, hthread, hnew, Relay.join?_openSource]

/-- All that a call can do next. -/
inductive Steps (o : Opener) (m : ManagerId) (first : SourceId) (r : Relay) :
    Stage → Stage → Relay → Prop where
  | shares {id : ConnectionId} {n : Connection} {c : Channel} {l : Listener} {s : Relay} :
      r.Admits o.request o.name id n c l s → Steps o m first r .asking (.shared l) s
  | misses : Steps o m first r .asking .missed r
  | breaks {cause : InputFailure} : o.start = .error cause →
      Steps o m first r .missed (.failed (.input cause) none) (r.enter .started)
  | starts {i : Input} : o.start = .ok i → Steps o m first r .missed (.started i) (r.enter .started)
  | denies {i : Input} {cause : InputFailure} : o.refusal = some cause →
      Steps o m first r (.started i) (.failed (.input cause) none) r
  | opens {manager : Manager} {i : Input} : r.manager = some manager → o.refusal = none →
      Steps o m first r (.started i) (.opened ⟨r.nextSource, { cursor := 1 }⟩)
        (r.founding manager.settings.sizing i o.name)
  | lists {l : Listener} : o.onThread = true →
      Steps o m first r (.opened l) (.listed l) (r.perform (.add m o.request l.source))
  | asks {l : Listener} : r.agenda.stopped = false →
      Steps o m first r (.opened l) (.waiting l) (r.post (.add m o.request l.source))
  | refuses {l : Listener} : r.agenda.stopped = true →
      Steps o m first r (.opened l) (.refused l) r
  | waits {l : Listener} : r.agenda.stopped = false →
      Steps o m first r (.waiting l) (.waiting l) r
  | despairs {l : Listener} : r.agenda.stopped = true →
      Steps o m first r (.waiting l) (.refused l) r
  | leaves {l : Listener} {c : Channel} : r.channels.get? l.source = some c →
      Steps o m first r (.refused l) (.closing l.source c.feed.halt)
        { r with
          channels := r.channels.erase l.source
          listeners := r.listeners.erase o.name }
  | lingers {k : SourceId} {f : Feed} : f.source.reserved.isSome = true →
      Steps o m first r (.closing k f) (.closing k f) r
  | fails {k : SourceId} {f : Feed} : f.source.reserved = none →
      Steps o m first r (.closing k f) (.failed .schedulerStopped (some k)) r

theorem Steps.spares {x y : Opening} (h : o.Steps m first x.relay x.stage y.stage y.relay)
    (hlisted : ∀ l, y.stage ≠ .listed l) : o.Spares x y := by
  obtain ⟨r, s, n⟩ := x
  obtain ⟨r', s', n'⟩ := y
  cases h with
  | shares hadmits =>
    obtain rfl : r' = _ := hadmits.frame
    exact ⟨rfl, rfl, (List.append_nil _).symm, Or.inl rfl, Nat.le_refl _⟩
  | breaks _ => exact ⟨rfl, rfl, rfl, Or.inl rfl, Nat.le_refl _⟩
  | starts _ => exact ⟨rfl, rfl, rfl, Or.inl rfl, Nat.le_refl _⟩
  | opens _ _ => exact ⟨rfl, rfl, (List.append_nil _).symm, Or.inl rfl, Nat.le_succ _⟩
  | lists _ => exact absurd rfl (hlisted _)
  | asks _ =>
    exact ⟨rfl, rfl, (List.append_nil _).symm, Or.inr ⟨m, _, rfl, rfl⟩, Nat.le_refl _⟩
  | _ => exact ⟨rfl, rfl, (List.append_nil _).symm, Or.inl rfl, Nat.le_refl _⟩

theorem Steps.goes {x y : Opening} (h : o.Steps m first x.relay x.stage y.stage y.relay) :
    o.Goes x y := by
  obtain ⟨r, s, n⟩ := x
  obtain ⟨r', s', n'⟩ := y
  refine ⟨fun hwaits => ?_, fun hwaits => ?_, ?_⟩
  · cases h with
    | waits _ => exact ⟨rfl, rfl⟩
    | lingers _ => exact ⟨rfl, rfl⟩
    | despairs hstopped => cases hstopped.symm.trans hwaits
    | fails hread =>
      simp only [Stage.Waits, hread] at hwaits
      cases hwaits
    | _ => cases hwaits
  · cases h with
    | waits hrunning => exact absurd hrunning hwaits
    | lingers hread => exact absurd hread hwaits
    | _ => simp [Stage.toGo]
  · rintro l rfl
    cases h with
    | leaves hc => exact ⟨_, hc, rfl, rfl⟩

theorem Steps.starts_eq {s s' : Stage} {r' : Relay} (h : o.Steps m first r s s' r') :
    s.starts + s.starting = s'.starts := by
  cases h <;> rfl

theorem Steps.stands {s s' : Stage} {r' : Relay} (h : o.Steps m first r s s' r')
    (hstands : o.Stands m first r s) (hfirst : first ≤ r.nextSource) (hopen : s'.result? = none) :
    o.Stands m first r' s' := by
  cases h with
  | misses => exact hstands
  | starts hstart => exact ⟨(Relay.Hosts.kept o.name none []).enter r .started hstands, hstart⟩
  | opens _ _ => exact ⟨hstands.1.founding _ _, rfl, hfirst, _, hstands.2⟩
  | @asks l hrunning =>
    have hasked := Relay.Hosts.asks hstands.hosts hrunning (t := .add m o.request l.source) rfl
    have hstill : (r.post (.add m o.request l.source)).agenda.stopped = false := by
      rw [Relay.post, Agenda.post_of_running hrunning, hrunning]
    simp only [Stands, hstill, Bool.false_eq_true, if_false]
    exact ⟨hasked, hstands.reader, hstands.new, hstands.started⟩
  | refuses hstopped => exact ⟨hstands, hstopped⟩
  | waits _ => exact hstands
  | despairs hstopped =>
    simp only [Stands, hstopped, if_true] at hstands
    exact ⟨hstands, hstopped⟩
  | leaves hc =>
    obtain ⟨howns, hstopped⟩ := hstands
    have hosts := howns.hosts.left hstopped
    have hnumbered := howns.hosts.anchored.numbered _ _ hc
    refine ⟨hosts, howns.started, .of_channel hosts hstopped ⟨howns.new, hnumbered⟩ ?_⟩
    rw [Roster.get?_erase, if_pos rfl]
  | lingers _ => exact hstands
  | _ => cases hopen

end Opener

namespace Opening
variable {o : Opener} {m : ManagerId} {first : SourceId} {x : Opening}

/-- A call under way, at a relay whose manager has this number and whose sources have numbers from
this one on if they come after the call. -/
structure Sound (o : Opener) (m : ManagerId) (first : SourceId) (x : Opening) : Prop where
  kempt : x.relay.registry.Kempt
  hushed : x.relay.Hushed
  managed : x.relay.manager.map Manager.id = some m
  starts : x.starts = x.stage.starts
  later : first ≤ x.relay.nextSource
  stands : o.Stands m first x.relay x.stage

theorem Sound.manager (h : x.Sound o m first) :
    ∃ manager, x.relay.manager = some manager ∧ manager.id = m :=
  Option.map_eq_some_iff.mp h.managed

theorem stage_other (o : Opener) (x : Opening) (d : Deed) :
    (x.act o (.other d)).stage = x.stage.supplied d ∨
      ∃ l, x.stage = .waiting l ∧ (x.act o (.other d)).stage = .listed l := by
  change (x.stage.answered (x.relay.listing? d)).supplied d = x.stage.supplied d ∨
    ∃ l, x.stage = .waiting l ∧ (x.stage.answered (x.relay.listing? d)).supplied d = .listed l
  cases hs : x.stage with
  | waiting l =>
    simp only [Opener.Stage.answered]
    split
    · exact Or.inr ⟨l, rfl, rfl⟩
    · exact Or.inl rfl
  | _ => exact Or.inl rfl

theorem stage_other_of_open {d : Deed} (hopen : (x.act o (.other d)).stage.result? = none) :
    (x.act o (.other d)).stage = x.stage.supplied d := by
  rcases stage_other o x d with hsame | ⟨l, _, hlisted⟩
  · exact hsame
  · rw [hlisted] at hopen
    cases hopen

/-- If the call has not been answered, its source has not been listed. -/
theorem listing?_ne (h : x.Sound o m first) {d : Deed}
    (hopen : (x.act o (.other d)).stage.result? = none) :
    ∀ l, x.stage.own? = some l → x.relay.listing? d ≠ some l.source := by
  have hstands := h.stands
  cases hs : x.stage with
  | opened j =>
    rw [hs] at hstands
    rintro _ ⟨⟩
    exact hstands.hosts.listing?_ne d
  | refused j =>
    rw [hs] at hstands
    rintro _ ⟨⟩
    exact hstands.1.hosts.listing?_ne d
  | waiting j =>
    rintro _ ⟨⟩ hlisting
    have hanswered : (x.act o (.other d)).stage = .listed j := by
      change (x.stage.answered _).supplied d = _
      rw [hs, Opener.Stage.answered, if_pos hlisting]
      rfl
    rw [hanswered] at hopen
    cases hopen
  | _ =>
    intro l hl
    cases hl

theorem Sound.other (h : x.Sound o m first) (hopen : x.stage.result? = none) {d : Deed}
    (hd : x.Heeds o (.other d)) (hopen' : (x.act o (.other d)).stage.result? = none) :
    (x.act o (.other d)).Sound o m first := by
  have hne := listing?_ne h hopen'
  have hstage := stage_other_of_open hopen'
  have hung := (h.stands.anchored hopen).hung
  obtain ⟨_, hturned, _⟩ := x.relay.turned_enact d
  refine
    { kempt := hturned.kempt h.kempt
      hushed := h.hushed.enact hung hd.2
      managed := hturned.manager.trans h.managed
      starts := by rw [hstage, x.stage.starts_supplied]; exact h.starts
      later := Nat.le_trans h.later (x.relay.later_enact d).nextSource
      stands := ?_ }
  rw [hstage]
  exact (h.stands.enact hd.1 hne).supplied d

/-! ## The call's own steps -/

theorem Sound.steps (h : x.Sound o m first) (hopen : x.stage.result? = none) :
    o.Steps m first x.relay x.stage (x.act o .go).stage (x.act o .go).relay := by
  obtain ⟨manager, hm, hid⟩ := h.manager
  have hstands := h.stands
  change o.Steps m first x.relay x.stage (o.step x.relay x.stage).1 (o.step x.relay x.stage).2
  cases hs : x.stage with
  | asking =>
    have htells := (h.stands.anchored hopen).attach_tells h.kempt o.request o.name
    simp only [Opener.step]
    cases hattach : x.relay.tryAttach o.request o.name with
    | ok found =>
      rw [hattach] at htells
      obtain ⟨id, n, c, hadmits⟩ := htells
      exact .shares hadmits
    | error e => exact .misses
  | missed =>
    simp only [Opener.step]
    cases hstart : o.start with
    | error cause => exact .breaks hstart
    | ok i => exact .starts hstart
  | started i =>
    cases hthread : o.refusal with
    | some cause =>
      simp only [Opener.step, hm, hthread, Relay.openSource?]
      exact .denies hthread
    | none =>
      rw [Opener.step_started hm hthread]
      exact .opens hm hthread
  | opened l =>
    simp only [Opener.step, hm, hid]
    cases hthread : o.onThread with
    | true => exact .lists hthread
    | false =>
      cases hstopped : x.relay.agenda.stopped with
      | true => exact .refuses hstopped
      | false => exact .asks hstopped
  | waiting l =>
    simp only [Opener.step]
    cases hstopped : x.relay.agenda.stopped with
    | true => exact .despairs hstopped
    | false => exact .waits hstopped
  | refused l =>
    rw [hs] at hstands
    obtain ⟨c, hc, _⟩ := (hstands.1.hosts.solo l rfl).unread
    have hgone : (x.relay.channels.erase l.source).get? l.source = none := by
      rw [Roster.get?_erase, if_pos rfl]
    simp only [Opener.step, hstands.1.hosts.leave_eq hstands.2, hc, hgone]
    exact .leaves hc
  | closing k f =>
    simp only [Opener.step]
    cases hread : f.source.reserved with
    | some span => exact .lingers (by rw [hread]; rfl)
    | none => exact .fails hread
  | _ =>
    rw [hs] at hopen
    cases hopen

theorem Sound.go (h : x.Sound o m first) (hopen : x.stage.result? = none)
    (hopen' : (x.act o .go).stage.result? = none) : (x.act o .go).Sound o m first := by
  have hsteps := h.steps hopen
  have hspares := hsteps.spares fun l hl => by
    rw [hl] at hopen'
    cases hopen'
  have hregistry : (x.act o .go).relay.registry = x.relay.registry := by
    rw [Relay.registry, hspares.manager, ← Relay.registry]
  refine
    { kempt := by rw [hregistry]; exact h.kempt
      hushed := ⟨by rw [hregistry]; exact h.hushed.subscribed, ?_⟩
      managed := by rw [hspares.manager]; exact h.managed
      starts := ?_
      later := Nat.le_trans h.later hspares.nextSource
      stands := hsteps.stands h.stands h.later hopen' }
  · rcases hspares.agenda with he | ⟨i, l, _, he⟩
    · rw [he]
      exact h.hushed.queued
    · rw [he, Agenda.post]
      split
      · exact h.hushed.queued
      · intro t ht
        rcases List.mem_append.mp ht with ht | ht
        · exact h.hushed.queued t ht
        · rw [List.mem_singleton.mp ht]
          trivial
  · rw [← hsteps.starts_eq, ← h.starts]
    rfl

/-- A call stays sound until it returns, whoever acts. -/
theorem Sound.act (h : x.Sound o m first) (hopen : x.stage.result? = none) {a : Act}
    (ha : x.Heeds o a) (hopen' : (x.act o a).stage.result? = none) :
    (x.act o a).Sound o m first := by
  cases a with
  | go => exact h.go hopen hopen'
  | other d => exact h.other hopen ha hopen'

theorem stage_act {r : Except Failure Listener} (h : x.stage.result? = some r) (a : Act) :
    (x.act o a).stage = x.stage := by
  cases a with
  | go =>
    change (o.step x.relay x.stage).1 = x.stage
    cases hs : x.stage with
    | shared l => rfl
    | listed l => rfl
    | failed e gone => rfl
    | _ =>
      rw [hs] at h
      cases h
  | other d =>
    change (x.stage.answered _).supplied d = x.stage
    cases hs : x.stage with
    | waiting l =>
      rw [hs] at h
      cases h
    | closing k f =>
      rw [hs] at h
      cases h
    | _ => rfl

theorem result?_run {r : Except Failure Listener} (h : x.stage.result? = some r)
    (acts : List Act) : (x.run o acts).stage.result? = some r := by
  induction acts generalizing x with
  | nil => exact h
  | cons a rest ih => exact ih ((congrArg Opener.Stage.result? (stage_act h a)).trans h)

theorem open_of_run {acts : List Act} (h : (x.run o acts).stage.result? = none) :
    x.stage.result? = none := by
  refine Option.eq_none_iff_forall_ne_some.mpr fun r hr => ?_
  rw [result?_run hr] at h
  cases h

theorem Sound.run (h : x.Sound o m first) {acts : List Act} (hacts : x.HeedRun o acts)
    (hopen : (x.run o acts).stage.result? = none) : (x.run o acts).Sound o m first := by
  induction acts generalizing x with
  | nil => exact h
  | cons a rest ih =>
    have hnow : x.stage.result? = none := open_of_run hopen
    exact ih (h.act hnow hacts.1 (open_of_run hopen)) hacts.2 hopen

/-! ## The end of a call -/

end Opening
end MediaRelay
