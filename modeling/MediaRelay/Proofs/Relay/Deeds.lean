import MediaRelay.Proofs.Relay.Listing
import MediaRelay.Proofs.Relay.Moves

/-! # Runs with any callers

Besides the moves, sources may be held by those who have created them, the thread may be asked to
list any source, and it may be stopped. A deed either has the thread perform a task, from the queue
or from a timer, or it leaves the manager and the journal alone and at most posts what it asks for
and what hangs on a source that goes. Only tasks that undo a listing, and what others want to be
told of, hang on sources and timers.
-/
namespace MediaRelay

/-- Something that happens at a relay, whoever brings it about. -/
inductive Deed where
  | move (v : Move)
  /-- A source is created, and held by its creator. -/
  | own (z : Sizing) (i : Input)
  | disown (k : SourceId)
  | join (k : SourceId) (name : String)
  | list (request : Request) (k : SourceId)
  | stop
  /-- Once the thread is stopped, those who cancel a subscription strike it off themselves. -/
  | strike (id : SubscriberId)

/-- What is kept for later, at a source or with a timer. -/
def Task.hangs : Task → Bool
  | .sourceClosed _ _ => true
  | .cursorLeft _ _ => true
  | .windowElapsed _ _ => true
  | .enter (.closed _) => true
  | .enter (.detached _) => true
  | _ => false

/-- What a deed asks the thread for. -/
inductive Deed.Asks : Deed → Task → Prop where
  | add {name : String} {request : Request} {m : ManagerId} {k : SourceId} :
      Asks (.move (.add name request)) (.add m request k)
  | list {request : Request} {m : ManagerId} {k : SourceId} :
      Asks (.list request k) (.add m request k)
  | remove {id : ConnectionId} {m : ManagerId} : Asks (.move (.remove id)) (.remove m id)
  | close {m : ManagerId} : Asks (.move .close) (.close m)
  | subscribe {s : Subscriber} {m : ManagerId} : Asks (.move (.subscribe s)) (.subscribe m s)
  | unsubscribe {id : SubscriberId} {m : ManagerId} :
      Asks (.move (.unsubscribe id)) (.unsubscribe m id)

namespace Relay

/-- A deed; where it cannot be done, nothing happens. -/
def enact (r : Relay) : Deed → Relay
  | .move v => r.make v
  | .own z i => (r.openSource z i true).2
  | .disown k => r.disown k
  | .join k name => if r.listeners.contains name then r else r.joining k name
  | .list request k => r.ask fun m => .add m request k
  | .stop => { r with agenda := r.agenda.stop }
  | .strike id => if r.agenda.stopped then r.updateRegistry (·.unsubscribe id) else r

def runDeeds (c : Settings) (catalog : Catalog) (deeds : List Deed) : Relay :=
  deeds.foldl enact (({} : Relay).makeManager c catalog)

/-- The task that a deed has the thread perform, and the agenda without it. -/
def served? (r : Relay) : Deed → Option (Task × Agenda Task)
  | .move .run => r.agenda.next?
  | .move (.fire n) =>
    r.agenda.timers[n]?.map fun t =>
      (t.task,
        { r.agenda with timers := r.agenda.timers.eraseIdx n, clock := max r.agenda.clock t.due })
  | _ => none

variable {r s t : Relay} {d : Deed}

theorem adds?_of_hangs {t : Task} (h : t.hangs = true) : adds? t = none := by
  cases t <;> first | rfl | cases h

theorem enact_of_served {t : Task} {a : Agenda Task} (h : r.served? d = some (t, a)) :
    r.enact d = { r with agenda := a }.perform t := by
  cases d with
  | move v =>
    cases v with
    | run =>
      have hnext : r.agenda.next? = some (t, a) := h
      simp [enact, make, runNext?, hnext]
    | fire n =>
      simp only [served?, Option.map_eq_some_iff, Prod.mk.injEq] at h
      obtain ⟨u, hu, rfl, rfl⟩ := h
      simp [enact, make, fire?, hu]
    | _ => cases h
  | _ => cases h

/-- Where a task that is served comes from. -/
inductive Taken (r : Relay) (t : Task) : Agenda Task → Prop where
  | queued {rest : List Task} : r.agenda.queue = t :: rest →
      Taken r t { r.agenda with queue := rest }
  | due {u : Timer Task} {a : Agenda Task} : u ∈ r.agenda.timers → u.task = t →
      a.queue = r.agenda.queue → a.stopped = r.agenda.stopped → a.timers ⊆ r.agenda.timers →
      Taken r t a

theorem taken_of_served {t : Task} {a : Agenda Task} (h : r.served? d = some (t, a)) :
    r.Taken t a := by
  cases d with
  | move v =>
    cases v with
    | run =>
      have hnext : r.agenda.next? = some (t, a) := h
      unfold Agenda.next? at hnext
      cases hq : r.agenda.queue with
      | nil => simp [hq] at hnext
      | cons u rest =>
        simp only [hq, Option.some.injEq, Prod.mk.injEq] at hnext
        obtain ⟨rfl, rfl⟩ := hnext
        exact .queued hq
    | fire n =>
      simp only [served?, Option.map_eq_some_iff, Prod.mk.injEq] at h
      obtain ⟨u, hu, rfl, rfl⟩ := h
      exact .due (List.mem_of_getElem? hu) rfl rfl rfl fun v hv => List.mem_of_mem_eraseIdx hv
    | _ => cases h
  | _ => cases h

/-! ## What hangs, and what is posted -/

/-- Sources and timers keep nothing but tasks that hang. -/
structure Hung (r : Relay) : Prop where
  sources : ∀ k c, r.channels.get? k = some c → ∀ t ∈ c.onDetach ++ c.onClose, t.hangs = true
  timers : ∀ t ∈ r.agenda.timers, t.task.hangs = true

theorem hung_start (c : Settings) (catalog : Catalog) : (runDeeds c catalog []).Hung := by
  constructor
  · intro k c hc
    cases hc
  · intro t ht
    cases ht

/-- Of what does not hang, only tasks of a kind are posted. -/
structure Appends (P : Task → Prop) (r s : Relay) : Prop where
  hung : s.Hung
  stopped : s.agenda.stopped = r.agenda.stopped
  queue : ∃ ts, s.agenda.queue = r.agenda.queue ++ ts ∧ ∀ t ∈ ts, t.hangs = true ∨ P t

namespace Appends
variable {P : Task → Prop}

theorem refl (h : r.Hung) : Appends P r r := ⟨h, rfl, [], by simp, by simp⟩

theorem trans (h : Appends P r s) (h' : Appends P s t) : Appends P r t := by
  obtain ⟨ts, hts, hkind⟩ := h.queue
  obtain ⟨us, hus, hkind'⟩ := h'.queue
  refine ⟨h'.hung, h'.stopped.trans h.stopped, ts ++ us, ?_, ?_⟩
  · rw [hus, hts, List.append_assoc]
  · intro t ht
    rcases List.mem_append.mp ht with ht | ht
    · exact hkind t ht
    · exact hkind' t ht

theorem of_eq (h : r.Hung) (hagenda : s.agenda = r.agenda) (hchannels : s.channels = r.channels) :
    Appends P r s :=
  ⟨⟨hchannels ▸ h.sources, hagenda ▸ h.timers⟩, by rw [hagenda], [], by simp [hagenda], by simp⟩

theorem updateChannel (h : r.Hung) (k : SourceId) {f : Channel → Channel}
    (hf : ∀ c, (∀ t ∈ c.onDetach ++ c.onClose, t.hangs = true) →
      ∀ t ∈ (f c).onDetach ++ (f c).onClose, t.hangs = true) :
    Appends P r (r.updateChannel k f) := by
  refine ⟨⟨?_, h.timers⟩, rfl, [], by simp [Relay.updateChannel], by simp⟩
  intro j d hd
  simp only [Relay.updateChannel, Roster.get?_modify] at hd
  split at hd
  · obtain ⟨c, hc, rfl⟩ := Option.map_eq_some_iff.mp hd
    exact hf c (h.sources j c hc)
  · exact h.sources j d hd

theorem postAll (h : r.Hung) {ts : List Task} (hts : ∀ t ∈ ts, t.hangs = true ∨ P t) :
    Appends P r { r with agenda := r.agenda.postAll ts } := by
  cases hstopped : r.agenda.stopped with
  | false =>
    rw [Agenda.postAll_of_running hstopped]
    exact ⟨⟨h.sources, h.timers⟩, rfl, ts, rfl, hts⟩
  | true =>
    rw [Agenda.postAll_of_stopped hstopped]
    exact refl h

theorem post (h : r.Hung) {t : Task} (ht : t.hangs = true ∨ P t) : Appends P r (r.post t) := by
  have hone : ∀ u ∈ [t], u.hangs = true ∨ P u := by simpa using ht
  exact postAll h hone

theorem reap (h : r.Hung) (k : SourceId) : Appends P r (r.reap k) := by
  rcases r.reap_cases k with ⟨he, _⟩ | ⟨c, hc, _, he⟩
  · rw [he]
    exact refl h
  · let gone : Relay := { r with channels := r.channels.erase k }
    have hgone : Appends P r gone := by
      refine ⟨⟨?_, h.timers⟩, rfl, [], by simp [gone], by simp⟩
      intro j d hd
      simp only [gone, Roster.get?_erase, Option.ite_none_left_eq_some] at hd
      exact h.sources j d hd.2
    rw [he]
    refine hgone.trans (postAll hgone.hung fun t ht => Or.inl ?_)
    exact h.sources k c hc t (List.mem_append_right _ ht)

theorem forget (h : r.Hung) (id : ConnectionId) : Appends P r (r.forget id) := by
  unfold Relay.forget
  split
  · exact refl h
  · have hforget : Appends P r (r.updateRegistry (·.forget id)) := of_eq h rfl rfl
    exact hforget.trans (reap hforget.hung _)

end Appends

/-- Nothing but announcements and what has hung on a source is posted by the thread itself. -/
def Announces (r s : Relay) : Prop := r.Hung → Appends (· = .announce) r s

theorem kept_announces : Kept Announces where
  refl := fun _ => Appends.refl
  trans := fun h h' hr => (h hr).trans (h' (h hr).hung)
  enter := fun _ _ hr => Appends.of_eq hr rfl rfl
  renounce := fun _ _ hr => Appends.of_eq hr rfl rfl
  subscribe := fun _ _ hr => Appends.of_eq hr rfl rfl
  unsubscribe := fun _ _ hr => Appends.of_eq hr rfl rfl
  forget := fun _ id hr => Appends.forget hr id
  delistAll := fun _ hr => Appends.of_eq hr rfl rfl
  delist := by
    intro r id _ hr
    have hdelist : Appends (· = .announce) r (r.updateRegistry (·.delist id)) := .of_eq hr rfl rfl
    have hforget := hdelist.trans (Appends.forget hdelist.hung id)
    exact hforget.trans (Appends.post hforget.hung (Or.inr rfl))

theorem announces_listing (m : Manager) (request : Request) (k : SourceId) (r : Relay) :
    Announces r (listing m request k r) := by
  intro hr
  have hadd : Appends (· = .announce) r (r.updateRegistry (·.add request k)) := .of_eq hr rfl rfl
  let id := (r.updateRegistry (·.add request k)).registry.lastId
  have hknown : Appends (· = .announce) (r.updateRegistry (·.add request k))
      ((r.updateRegistry (·.add request k)).updateChannel k fun c => underId c m.id id) := by
    refine Appends.updateChannel hadd.hung k ?_
    intro c hc t ht
    simp only [underId, List.mem_append, List.mem_singleton] at ht
    rcases ht with (ht | rfl) | (ht | rfl)
    · exact hc t (List.mem_append_left _ ht)
    · rfl
    · exact hc t (List.mem_append_right _ ht)
    · rfl
  have hboth := hadd.trans hknown
  refine ⟨⟨hboth.hung.sources, ?_⟩, ?_, [], ?_, by simp⟩
  · intro t ht
    change t ∈ (r.agenda.timer _ _).timers at ht
    unfold Agenda.timer at ht
    split at ht
    · exact hr.timers t ht
    · rcases List.mem_append.mp ht with ht | ht
      · exact hr.timers t ht
      · rw [List.mem_singleton.mp ht]
        rfl
  · change (r.agenda.timer _ _).stopped = _
    unfold Agenda.timer
    split <;> rfl
  · change (r.agenda.timer _ _).queue = _
    unfold Agenda.timer
    split <;> simp

theorem announces_perform (r : Relay) (t : Task) : Announces r (r.perform t) := by
  refine kept_announces.perform_of_listing r t ?_
  intro m request k _ _ hr
  have hlisting := announces_listing m request k r hr
  exact hlisting.trans (Appends.post hlisting.hung (Or.inr rfl))

namespace Taken
variable {t : Task} {a : Agenda Task}

theorem stopped (h : r.Taken t a) : a.stopped = r.agenda.stopped := by
  cases h with
  | queued _ => rfl
  | due _ _ _ hstopped _ => exact hstopped

theorem queue (h : r.Taken t a) : a.queue ⊆ r.agenda.queue := by
  cases h with
  | queued hq =>
    rw [hq]
    exact List.subset_cons_self t _
  | due _ _ hq _ _ =>
    rw [hq]
    exact List.Subset.refl _

theorem hung (h : r.Taken t a) (hr : r.Hung) : Hung { r with agenda := a } := by
  refine ⟨hr.sources, fun u hu => hr.timers u ?_⟩
  cases h with
  | queued _ => exact hu
  | due _ _ _ _ htimers => exact htimers hu

/-- What has not been queued has hung on a timer. -/
theorem mem_or_hangs (h : r.Taken t a) (hr : r.Hung) : t ∈ r.agenda.queue ∨ t.hangs = true := by
  cases h with
  | queued hq => exact Or.inl (hq ▸ List.mem_cons_self)
  | due hu ht _ _ _ => exact Or.inr (ht ▸ hr.timers _ hu)

end Taken

/-! ## Deeds that leave the thread alone -/

/-- No source gets the number of an old one. -/
structure Later (r s : Relay) : Prop where
  nextSource : r.nextSource ≤ s.nextSource
  gone : ∀ k < r.nextSource, r.channels.get? k = none → s.channels.get? k = none

namespace Later

theorem of_channels (hnext : s.nextSource = r.nextSource) (hchannels : s.channels = r.channels) :
    Later r s :=
  ⟨Nat.le_of_eq hnext.symm, fun _ _ hk => hchannels ▸ hk⟩

theorem trans (h : Later r s) (h' : Later s t) : Later r t :=
  ⟨Nat.le_trans h.nextSource h'.nextSource,
    fun k hk hnone => h'.gone k (Nat.lt_of_lt_of_le hk h.nextSource) (h.gone k hk hnone)⟩

theorem updateChannel (r : Relay) (k : SourceId) (f : Channel → Channel) :
    Later r (r.updateChannel k f) := by
  refine ⟨Nat.le_refl _, fun j _ hj => ?_⟩
  simp [Relay.updateChannel, Roster.get?_modify, hj]

theorem reap (r : Relay) (k : SourceId) : Later r (r.reap k) := by
  rcases r.reap_cases k with ⟨he, _⟩ | ⟨c, _, _, he⟩ <;> rw [he]
  · exact of_channels rfl rfl
  · refine ⟨Nat.le_refl _, fun j _ hj => ?_⟩
    simp [Roster.get?_erase, hj]

theorem forget (r : Relay) (id : ConnectionId) : Later r (r.forget id) := by
  unfold Relay.forget
  split
  · exact of_channels rfl rfl
  · have hforgets : Later r (r.updateRegistry (·.forget id)) := of_channels rfl rfl
    exact hforgets.trans (reap _ _)

theorem kept : Kept Later where
  refl := fun _ => of_channels rfl rfl
  trans := trans
  enter := fun _ _ => of_channels rfl rfl
  renounce := fun _ _ => of_channels rfl rfl
  subscribe := fun _ _ => of_channels rfl rfl
  unsubscribe := fun _ _ => of_channels rfl rfl
  forget := forget
  delistAll := fun _ => of_channels rfl rfl
  delist := fun r id _ => by
    have hdelists : Later r (r.updateRegistry (·.delist id)) := of_channels rfl rfl
    exact hdelists.trans ((forget _ id).trans (of_channels rfl rfl))

theorem perform (r : Relay) (t : Task) : Later r (r.perform t) :=
  kept.perform_of_listing r t fun _ request k _ _ =>
    have hlisted := updateChannel (r.updateRegistry (·.add request k)) k _
    ⟨hlisted.nextSource, hlisted.gone⟩

end Later

/-- The manager and the journal are left alone. -/
structure Aside (P : Task → Prop) (r s : Relay) : Prop where
  manager : s.manager = r.manager
  journal : s.journal = r.journal
  later : Later r s
  appends : r.Hung → Appends P r s

namespace Aside
variable {P : Task → Prop}

theorem refl (r : Relay) : Aside P r r := ⟨rfl, rfl, .of_channels rfl rfl, Appends.refl⟩

theorem trans (h : Aside P r s) (h' : Aside P s t) : Aside P r t :=
  ⟨h'.manager.trans h.manager, h'.journal.trans h.journal, h.later.trans h'.later,
    fun hr => (h.appends hr).trans (h'.appends (h.appends hr).hung)⟩

theorem updateChannel (r : Relay) (k : SourceId) {f : Channel → Channel}
    (hf : ∀ c, (∀ t ∈ c.onDetach ++ c.onClose, t.hangs = true) →
      ∀ t ∈ (f c).onDetach ++ (f c).onClose, t.hangs = true) : Aside P r (r.updateChannel k f) :=
  ⟨rfl, rfl, .updateChannel r k f, fun hr => Appends.updateChannel hr k hf⟩

theorem reap (r : Relay) (k : SourceId) : Aside P r (r.reap k) :=
  ⟨r.manager_reap k, r.journal_reap k, .reap r k, fun hr => Appends.reap hr k⟩

theorem openSource (r : Relay) (z : Sizing) (i : Input) (owned : Bool) :
    Aside P r (r.openSource z i owned).2 := by
  refine ⟨rfl, rfl, ⟨Nat.le_succ _, fun k hk hnone => ?_⟩, fun hr =>
    ⟨⟨fun k c hc => ?_, hr.timers⟩, rfl, [], by simp [Relay.openSource], by simp⟩⟩
  · simp [Relay.openSource, Roster.get?_put, Nat.ne_of_lt hk, hnone]
  · simp only [Relay.openSource, Roster.get?_put] at hc
    split at hc
    · cases hc
      simp
    · exact hr.sources k c hc

theorem join? {k : SourceId} {name : String} {l : Listener} (h : r.join? k name = some (l, s)) :
    Aside P r s := by
  unfold Relay.join? at h
  split at h
  · cases h
  · split at h
    · cases h
    · rename_i source _
      cases h
      have hsource : Aside P r (r.updateSource k fun _ => source) :=
        updateChannel r k fun _ hc => hc
      exact ⟨hsource.manager, hsource.journal, ⟨hsource.later.1, hsource.later.2⟩, fun hr =>
        (hsource.appends hr).trans (Appends.of_eq (hsource.appends hr).hung rfl rfl)⟩

theorem joining (r : Relay) (k : SourceId) (name : String) : Aside P r (r.joining k name) := by
  unfold Relay.joining
  cases hj : r.join? k name with
  | none => exact refl r
  | some p => exact join? (l := p.1) hj

theorem tryAttach {request : Request} {name : String} {l : Listener}
    (h : r.tryAttach request name = .ok (l, s)) : Aside P r s := by
  unfold Relay.tryAttach at h
  split at h
  · cases h
  · split at h
    · cases h
    · rename_i hj
      cases h
      exact join? hj

theorem listen? {α : Type} {name : String} {act : Reader → Feed → Option (α × Reader × Feed)}
    {a : α} (h : r.listen? name act = some (a, s)) : Aside P r s := by
  unfold Relay.listen? at h
  split at h
  · cases h
  · rename_i l _
    split at h
    · cases h
    · split at h
      · cases h
      · rename_i feed _
        cases h
        have hfeed : Aside P r (r.updateChannel l.source fun c => { c with feed := feed }) :=
          updateChannel r l.source fun _ hc => hc
        exact ⟨hfeed.manager, hfeed.journal, ⟨hfeed.later.1, hfeed.later.2⟩, fun hr =>
          (hfeed.appends hr).trans (Appends.of_eq (hfeed.appends hr).hung rfl rfl)⟩

theorem leave (r : Relay) (name : String) : Aside P r (r.leave name) := by
  unfold Relay.leave
  split
  · exact refl r
  · rename_i l _
    let detached := r.updateSource l.source (·.detach l.reader.cursor)
    let left := ((detached.channels.get? l.source).map Channel.onDetach).getD []
    have hdetached : Aside P r detached := updateChannel r l.source fun _ hc => hc
    have hleft : Aside P detached { detached with agenda := detached.agenda.postAll left } := by
      refine ⟨rfl, rfl, .of_channels rfl rfl, fun hr => Appends.postAll hr fun t ht => Or.inl ?_⟩
      cases hc : detached.channels.get? l.source with
      | none => simp [left, hc] at ht
      | some c =>
        simp only [left, hc, Option.map_some, Option.getD_some] at ht
        exact hr.sources l.source c hc t (List.mem_append_left _ ht)
    have hgone : Aside P { detached with agenda := detached.agenda.postAll left }
        { detached with
          agenda := detached.agenda.postAll left
          listeners := detached.listeners.erase name } :=
      ⟨rfl, rfl, .of_channels rfl rfl, fun hr => Appends.of_eq hr rfl rfl⟩
    have hfree := hdetached.trans (hleft.trans hgone)
    exact hfree.trans (reap _ l.source)

theorem disown (r : Relay) (k : SourceId) : Aside P r (r.disown k) := by
  have hfree : Aside P r (r.updateChannel k fun c => { c with owned := false }) :=
    updateChannel r k fun _ hc => hc
  exact hfree.trans (reap _ k)

theorem ask (r : Relay) {t : ManagerId → Task} (ht : ∀ m, P (t m)) : Aside P r (r.ask t) := by
  unfold Relay.ask
  split
  · exact refl r
  · exact ⟨rfl, rfl, .of_channels rfl rfl, fun hr => Appends.post hr (Or.inr (ht _))⟩

end Aside

theorem aside_make {v : Move} (h : r.served? (.move v) = none) :
    Aside (Deed.Asks (.move v)) r (r.make v) := by
  cases v with
  | openReader name z i =>
    simp only [make]
    split
    · exact .refl r
    · exact (Aside.openSource r z i false).trans (.joining _ _ name)
  | attach other name =>
    simp only [make]
    split
    · exact .joining r _ name
    · exact .refl r
  | tryAttach request name =>
    simp only [make]
    split
    · rename_i hattached
      exact .tryAttach hattached
    · exact .refl r
  | call name call =>
    simp only [make]
    generalize hlisten : r.listen? name _ = result
    cases result with
    | none => exact .refl r
    | some p => exact .listen? (a := p.1) hlisten
  | leave name =>
    simp only [make]
    split
    · exact .refl r
    · split
      · exact .leave r name
      · exact .refl r
  | produce k => exact .updateChannel r k fun _ hc => hc
  | feed k items => exact .updateChannel r k fun _ hc => hc
  | onClose k tag =>
    refine .updateChannel r k fun c hc t ht => ?_
    rw [← List.append_assoc, List.mem_append, List.mem_singleton] at ht
    rcases ht with ht | rfl
    · exact hc t ht
    · rfl
  | onDetach k tag =>
    refine .updateChannel r k fun c hc t ht => ?_
    simp only [List.mem_append, List.mem_singleton] at ht hc
    rcases ht with (ht | rfl) | ht
    · exact hc t (Or.inl ht)
    · rfl
    · exact hc t (Or.inr ht)
  | add name request =>
    simp only [make]
    split
    · exact .refl r
    · exact .ask r (t := fun m => .add m request _) fun _ => .add
  | remove id => exact .ask r (t := fun m => .remove m id) fun _ => .remove
  | close => exact .ask r (t := .close) fun _ => .close
  | subscribe s => exact .ask r (t := fun m => .subscribe m s) fun _ => .subscribe
  | unsubscribe id => exact .ask r (t := fun m => .unsubscribe m id) fun _ => .unsubscribe
  | subscriptions all => exact ⟨rfl, rfl, .of_channels rfl rfl, fun hr => Appends.of_eq hr rfl rfl⟩
  | run =>
    have hnext : r.agenda.next? = none := h
    simp only [make, runNext?, hnext, Option.getD_none]
    exact .refl r
  | fire n =>
    have hnone : r.agenda.timers[n]? = none := by simpa [served?] using h
    simp only [make, fire?, hnone, Option.getD_none]
    exact .refl r

/-- The deeds that take a part of the work away from the thread. -/
def Deed.overrides : Deed → Bool
  | .stop => true
  | .strike _ => true
  | _ => false

theorem aside_enact (h : r.served? d = none) (hd : Deed.overrides d = false) :
    Aside d.Asks r (r.enact d) := by
  cases d with
  | move v => exact aside_make h
  | own z i => exact .openSource r z i true
  | disown k => exact .disown r k
  | join k name =>
    simp only [enact]
    split
    · exact .refl r
    · exact .joining r k name
  | list request k => exact .ask r (t := fun m => .add m request k) fun _ => .list
  | stop => cases hd
  | strike id => cases hd

/-- Whatever happens, nothing but what hangs comes to hang. -/
theorem Hung.enact (h : r.Hung) (d : Deed) : (r.enact d).Hung := by
  cases hserved : r.served? d with
  | none =>
    cases hd : Deed.overrides d with
    | false => exact ((aside_enact hserved hd).appends h).hung
    | true =>
      cases d with
      | stop => exact ⟨h.sources, by simp [Relay.enact, Agenda.stop]⟩
      | strike id =>
        simp only [Relay.enact]
        split
        · exact ⟨h.sources, h.timers⟩
        · exact h
      | _ => cases hd
  | some served =>
    rw [enact_of_served hserved]
    have htaken := (taken_of_served hserved).hung h
    exact (announces_perform _ served.1 htaken).hung

theorem stopped_enact_of_ne (h : r.Hung) (hd : d ≠ .stop) :
    (r.enact d).agenda.stopped = r.agenda.stopped := by
  cases hserved : r.served? d with
  | some served =>
    have htaken := taken_of_served hserved
    rw [enact_of_served hserved]
    exact (announces_perform _ served.1 (htaken.hung h)).stopped.trans htaken.stopped
  | none =>
    cases hoverrides : Deed.overrides d with
    | false => exact ((aside_enact hserved hoverrides).appends h).stopped
    | true =>
      cases d with
      | stop => exact absurd rfl hd
      | strike id =>
        simp only [enact]
        split <;> rfl
      | _ => cases hoverrides

theorem stopped_enact (h : r.Hung) (hs : r.agenda.stopped = true) (d : Deed) :
    (r.enact d).agenda.stopped = true := by
  by_cases hd : d = .stop
  · rw [hd]
    rfl
  · exact (stopped_enact_of_ne h hd).trans hs

/-- Whatever happens, a source that is gone does not come back. -/
theorem later_enact (r : Relay) (d : Deed) : Later r (r.enact d) := by
  cases hserved : r.served? d with
  | some served =>
    rw [enact_of_served (t := served.1) (a := served.2) hserved]
    have htaken : Later r { r with agenda := served.2 } := .of_channels rfl rfl
    exact htaken.trans (.perform _ served.1)
  | none =>
    cases hd : Deed.overrides d with
    | false => exact (aside_enact hserved hd).later
    | true =>
      cases d with
      | stop => exact .of_channels rfl rfl
      | strike id =>
        simp only [enact]
        split <;> exact .of_channels rfl rfl
      | _ => cases hd

theorem hung_runDeeds (c : Settings) (catalog : Catalog) (deeds : List Deed) :
    (runDeeds c catalog deeds).Hung := by
  have hall : ∀ (ds : List Deed) {r : Relay}, r.Hung → (ds.foldl Relay.enact r).Hung := by
    intro ds
    induction ds with
    | nil => exact fun h => h
    | cons d rest ih => exact fun h => ih (h.enact d)
  exact hall deeds (hung_start c catalog)

end Relay
end MediaRelay
