import MediaRelay.Proofs.Relay.Removals
import MediaRelay.Proofs.Relay.Windows

/-! # How long sources are retained

The registry retains the source of a listing until one of four things happens: the window of the
listing is over, the connection is removed, all connections are closed, or a cursor leaves the
source. Whatever is done, and in whatever order, the log tells of each listing what has become of
it; and whenever the thread has nothing left to do, it tells which sources are retained, and for
which connections.
-/
namespace MediaRelay.Relay

variable {r s : Relay} {m : ManagerId}

/-- The log tells of all that is listed, and of each listing what has become of it. -/
structure Booked (m : ManagerId) (ts : List Task) (r : Relay) (log : List Incident) : Prop where
  managed : r.manager.map Manager.id = some m
  running : r.agenda.stopped = false
  tidy : r.Tidy
  kempt : r.registry.Kempt
  asked : ∀ t ∈ ts, ∀ k, adds? t = some k → k < r.nextSource
  fresh : Fresh m ts r
  logged : ∀ id ∈ r.registry.ids, ∃ k due after, Since log id k due after
  once : ∀ {id j k due till after rest}, Since log id j due after → Since log id k till rest →
    k = j ∧ till = due ∧ rest = after
  accounted : ∀ id k due after, Since log id k due after → Accounted m ts r id k due after

namespace Booked
variable {ts us : List Task} {log more : List Incident}

theorem isManagedBy (h : Booked m ts r log) : r.isManagedBy m = true := by
  obtain ⟨manager, hmanager, rfl⟩ := Option.map_eq_some_iff.mp h.managed
  simp [Relay.isManagedBy, hmanager]

theorem start (c : Settings) (catalog : Catalog) :
    Booked 0 [] (({} : Relay).makeManager c catalog) [] where
  managed := rfl
  running := rfl
  tidy :=
    { numbered := fun _ _ h => nomatch h
      channels := fun _ _ h => nomatch h
      housed := fun _ _ h => nomatch h
      asked := fun _ h => nomatch h
      queued := fun _ h => nomatch h
      timed := fun _ h => nomatch h }
  kempt := kempt_start c catalog
  asked := fun _ h => nomatch h
  fresh :=
    { posted := fun _ h => nomatch h
      hung := fun _ _ h => nomatch h
      timed := fun _ h => nomatch h }
  logged := fun _ h => nomatch h
  once := fun h => absurd h not_since_nil
  accounted := fun _ _ _ _ h => absurd h not_since_nil

/-- The tasks in hand are done, and nothing is listed. -/
theorem spends (h : Booked m ts r log) (hs : Spends ts us r s)
    (hlists : ∀ id k due, .listed id k due ∉ more)
    (hleft : ∀ id, .left id ∈ more ↔ id ∈ r.registry.ids ∧ id ∉ s.registry.ids)
    (hdeparted : ∀ id k due after, Accounted m ts r id k due after →
      (.departed k ∈ more ↔ .cursorLeft m id ∈ us))
    (hposted : ∀ id, .cursorLeft m id ∈ us → id ≤ r.registry.lastId) :
    Booked m [] s (log ++ more) where
  managed := hs.manager.trans h.managed
  running := hs.rests.running.trans h.running
  tidy := hs.rests.tidy
  kempt := hs.kempt h.kempt
  asked := by simp
  fresh := h.fresh.spends hs hposted
  logged := by
    intro id hid
    obtain ⟨k, due, after, hsince⟩ := h.logged id (hs.ids id hid)
    exact ⟨k, due, after ++ more, since_append.mpr (Or.inl ⟨after, hsince, rfl⟩)⟩
  once := by
    intro id j k due till after rest hfirst hsecond
    rcases since_append.mp hfirst with ⟨_, hone, rfl⟩ | hmore
    · rcases since_append.mp hsecond with ⟨_, htwo, rfl⟩ | hmore
      · obtain ⟨rfl, rfl, rfl⟩ := h.once hone htwo
        exact ⟨rfl, rfl, rfl⟩
      · exact absurd hmore.mem (hlists id k till)
    · exact absurd hmore.mem (hlists id j due)
  accounted := by
    intro id k due after hsince
    rcases since_append.mp hsince with ⟨rest, hbefore, rfl⟩ | hmore
    · have hrest := h.accounted id k due rest hbefore
      exact hrest.spends hs h.isManagedBy (hleft id) (hdeparted id k due rest hrest)
    · exact absurd hmore.mem (hlists id k due)

theorem takes (h : Booked m [] r log) {t : Task} {a : Agenda Task} (ht : Takes r t a) :
    Booked m [t] { r with agenda := a } log where
  managed := h.managed
  running := ht.running.trans h.running
  tidy :=
    { h.tidy with
      asked := fun u hu => h.tidy.asked u (ht.queue hu)
      queued := fun u hu => h.tidy.queued u (ht.queue hu)
      timed := fun u hu => h.tidy.timed u (ht.timers hu) }
  kempt := h.kempt
  asked := by
    simp only [List.mem_singleton]
    rintro t rfl k hk
    rcases ht.origin with hqueue | ⟨u, hu, rfl, _⟩
    · exact h.tidy.asked t hqueue k hk
    · rw [adds?_of_elapses (h.tidy.timed u hu)] at hk
      cases hk
  fresh :=
    { posted := fun id hmem => h.fresh.posted id ((ht.mem_iff h.tidy).mp hmem)
      hung := h.fresh.hung
      timed := fun u hu => h.fresh.timed u (ht.timers hu) }
  logged := h.logged
  once := h.once
  accounted := fun id k due after hsince => (h.accounted id k due after hsince).takes h.tidy ht

theorem opens (h : Booked m [] r log) {manager : Manager} (hm : r.manager = some manager)
    (request : Request) {k : SourceId} (hk : k < r.nextSource) :
    Booked m [] (announced manager request k r)
      (log ++ [.listed (r.registry.lastId + 1) k
        (r.agenda.clock + manager.settings.dedupWindow)]) := by
  have hid : manager.id = m := by simpa [hm] using h.managed
  have ho := opens_announced hm h.tidy h.running request k
  have hregistry : (announced manager request k r).registry = r.registry.add request k :=
    registry_listing hm request k
  refine
    { managed := (r.manager_updateRegistry (·.add request k)).trans h.managed
      running := ho.running.trans h.running
      tidy := ho.tidy
      kempt := hregistry ▸ h.kempt.add request k
      asked := by simp
      fresh := h.fresh.opens ho hregistry
      logged := ?_
      once := ?_
      accounted := ?_ }
  · rw [hregistry]
    intro id hmem
    rw [ids_add] at hmem
    rcases List.mem_append.mp hmem with hold | hnew
    · obtain ⟨j, due, after, hsince⟩ := h.logged id hold
      exact ⟨j, due, _, since_append.mpr (Or.inl ⟨after, hsince, rfl⟩)⟩
    · rw [List.mem_singleton.mp hnew]
      exact ⟨_, _, _, log, rfl⟩
  · have hnew : ∀ {id j due after}, Since log id j due after → id ≠ r.registry.lastId + 1 :=
      fun hsince => Int.ne_of_lt (Int.lt_add_one_of_le (h.accounted _ _ _ _ hsince).issued)
    intro id i j due till after rest hfirst hsecond
    rcases since_append.mp hfirst with ⟨_, hone, rfl⟩ | hlast
    · rcases since_append.mp hsecond with ⟨_, htwo, rfl⟩ | hlast
      · obtain ⟨rfl, rfl, rfl⟩ := h.once hone htwo
        exact ⟨rfl, rfl, rfl⟩
      · exact absurd (since_singleton.mp hlast).1 (hnew hone)
    · obtain ⟨rfl, rfl, rfl, rfl⟩ := since_singleton.mp hlast
      rcases since_append.mp hsecond with ⟨_, htwo, rfl⟩ | hlast
      · exact absurd rfl (hnew htwo)
      · exact (since_singleton.mp hlast).2
  · intro id j due after hsince
    rcases since_append.mp hsince with ⟨rest, hbefore, rfl⟩ | hnew
    · exact (h.accounted id j due rest hbefore).opens ho hregistry _ _
    · obtain ⟨rfl, rfl, rfl, rfl⟩ := since_singleton.mp hnew
      exact accounted_new h.fresh hid hk ho hregistry

/-- What is not listed and does not go from the table stays as it is. -/
theorem settles (h : Booked m ts r log) (hs : Spends ts [] r s) :
    Booked m [] s (log ++ goings r.registry s.registry) := by
  refine h.spends hs ?_ (fun id => mem_goings) ?_ (by simp)
  · simp [goings]
  · simp [goings]

theorem perform {t : Task} (h : Booked m [t] r log) :
    Booked m [] (r.perform t)
      (log ++ (r.openings r.agenda.clock t ++
        goings (r.listedBy t) (r.perform t).registry)) := by
  cases hadds : adds? t with
  | none =>
    have hopenings : r.openings r.agenda.clock t = [] := by
      cases t <;> first | rfl | cases hadds
    have hlisted : r.listedBy t = r.registry := by
      cases t <;> first | rfl | cases hadds
    rw [hopenings, hlisted, List.nil_append]
    exact h.settles (spends_perform h.tidy h.running hadds)
  | some j =>
    cases t with
    | add i request k =>
      have hidle : Spends [.add i request k] [] r r :=
        spends_of_manager (.refl h.tidy) rfl (by simp)
      have hdone : Booked m [] r log := by
        simpa only [goings_self, List.append_nil] using h.settles hidle
      obtain ⟨manager, hm, _⟩ := Option.map_eq_some_iff.mp h.managed
      by_cases hid : manager.id = i
      · have hopened := hdone.opens hm request (h.asked _ List.mem_cons_self k rfl)
        have htold := hopened.settles (spends_tellAll hopened.tidy hopened.running
          (listing manager request k r).registry.count)
        have hregistry : (announced manager request k r).registry = r.registry.add request k :=
          registry_listing hm request k
        rw [List.append_assoc, hregistry, ← add_eq_announced] at htold
        simpa only [Relay.perform, openings, listedBy, Relay.isManagedBy, hm, Option.any_some,
          decide_eq_true_eq, if_pos hid] using htold
      · simpa only [Relay.perform, openings, listedBy, Relay.isManagedBy, hm, Option.any_some,
          decide_eq_true_eq, if_neg hid, goings_self, List.append_nil] using hdone
    | _ => cases hadds

theorem leave (h : Booked m [] r log) (name : String) :
    Booked m [] (r.leave name) (log ++ r.partings (.move (.leave name))) := by
  cases hl : r.listeners.get? name with
  | none => simpa [Relay.leave, partings, hl] using h
  | some l =>
    obtain ⟨c, hc⟩ := Option.isSome_iff_exists.mp (h.tidy.housed name l hl)
    have hrests := Rests.leave h.tidy h.running hl hc
    have hmanager := (Aside.leave (P := fun _ => True) r name).manager
    have hregistry : (r.leave name).registry = r.registry := by
      rw [registry, hmanager, ← registry]
    have hlog : r.partings (.move (.leave name)) = [.departed l.source] := by simp [partings, hl]
    rw [hlog]
    refine h.spends (spends_of_manager hrests hmanager (by simp)) (by simp) ?_ ?_ ?_
    · intro id
      simp [hregistry]
    · intro id k due after haccounted
      rw [haccounted.hung l.source c hc]
      simp [eq_comm]
    · exact h.fresh.hung l.source c hc

theorem unserved (h : Booked m [] r log) {d : Deed} (hserved : r.served? d = none)
    (hleave : ∀ name, d ≠ .move (.leave name))
    (hlist : ∀ request k, d = .list request k → k < r.nextSource) (hstop : d ≠ .stop) :
    Booked m [] (r.enact d) log := by
  have hrests := rests_enact h.tidy h.running hserved hleave hlist hstop
  have hmanager : (r.enact d).manager = r.manager := by
    cases hd : Deed.overrides d with
    | false => exact (aside_enact hserved hd).manager
    | true =>
      cases d with
      | stop => exact absurd rfl hstop
      | strike id => simp [enact, h.running]
      | _ => cases hd
  have hspends : Spends [] [] r (r.enact d) := spends_of_manager hrests hmanager (by simp)
  have hregistry : (r.enact d).registry = r.registry := by rw [registry, hmanager, ← registry]
  simpa only [hregistry, goings_self, List.append_nil] using h.settles hspends

/-- One moment, as long as the thread is not stopped in it. -/
theorem pass (h : Booked m [] r log) (mo : Moment)
    (hrunning : (r.pass mo).agenda.stopped = false) :
    Booked m [] (r.pass mo) (log ++ r.incidents mo) := by
  cases mo with
  | elapse time =>
    have hspends : Spends [] [] r (r.elapse time) :=
      spends_of_manager (rests_elapse h.tidy time) rfl (by simp)
    have hregistry : (r.elapse time).registry = r.registry := rfl
    have hsettled := h.settles hspends
    rw [hregistry, goings_self] at hsettled
    exact hsettled
  | deed d =>
    cases hserved : r.served? d with
    | some served =>
      obtain ⟨t, a⟩ := served
      have hperformed := (h.takes (takes_of_served hserved)).perform
      rw [openings_agenda, listedBy_agenda, ← enact_of_served hserved] at hperformed
      simpa only [pass_of_served hserved, incidents, hserved] using hperformed
    | none =>
      simp only [incidents, hserved]
      rcases r.pass_cases d with ⟨name, rfl, hpass⟩ | ⟨hpass, hleave, hlist⟩ | ⟨hpass, hnone⟩
      · rw [hpass]
        exact h.leave name
      · have hstop : d ≠ .stop := by
          rintro rfl
          cases hrunning
        rw [hpass, partings_of_not_leave hleave, List.append_nil]
        exact h.unserved hserved hleave hlist hstop
      · rw [hpass, partings_of_not_leave hnone, List.append_nil]
        exact h

end Booked

/-! ## All that happens -/

theorem Hung.pass (h : r.Hung) (mo : Moment) : (r.pass mo).Hung := by
  cases mo with
  | elapse time => exact ⟨h.sources, h.timers⟩
  | deed d =>
    rcases r.pass_cases d with ⟨name, _, hpass⟩ | ⟨hpass, _⟩ | ⟨hpass, _⟩ <;> rw [hpass]
    · exact ((Aside.leave (P := fun _ => True) r name).appends h).hung
    · exact h.enact d
    · exact h

theorem stopped_pass (h : r.Hung) (hs : r.agenda.stopped = true) (mo : Moment) :
    (r.pass mo).agenda.stopped = true := by
  cases mo with
  | elapse time => exact hs
  | deed d =>
    rcases r.pass_cases d with ⟨name, _, hpass⟩ | ⟨hpass, _⟩ | ⟨hpass, _⟩ <;> rw [hpass]
    · exact ((Aside.leave (P := fun _ => True) r name).appends h).stopped.trans hs
    · exact stopped_enact h hs d
    · exact hs

theorem booked_foldl {log : List Incident} (moments : List Moment) (hung : r.Hung)
    (h : r.agenda.stopped = false → Booked m [] r log) :
    let w := moments.foldl (fun w mo => (w.1.pass mo, w.2 ++ w.1.incidents mo)) (r, log)
    w.1.agenda.stopped = false → Booked m [] w.1 w.2 := by
  induction moments generalizing r log with
  | nil => exact h
  | cons mo rest ih =>
    refine ih (hung.pass mo) fun hrunning => ?_
    cases hs : r.agenda.stopped with
    | false => exact (h hs).pass mo hrunning
    | true =>
      rw [stopped_pass hung hs mo] at hrunning
      cases hrunning

/-- As long as the thread runs, the log tells what has become of each listing. -/
theorem booked_watch (c : Settings) (catalog : Catalog) (moments : List Moment)
    (hrunning : (watch c catalog moments).1.agenda.stopped = false) :
    Booked 0 [] (watch c catalog moments).1 (watch c catalog moments).2 :=
  booked_foldl moments (hung_start c catalog) (fun _ => .start c catalog) hrunning

/-! ## What is retained -/

/-- A connection has been listed with a source. Its window is not over, it has not gone since, and
no cursor has left the source since. -/
def WindowOpen (r : Relay) (log : List Incident) (id : ConnectionId) (k : SourceId) : Prop :=
  ∃ due after, Since log id k due after ∧ r.agenda.clock < due ∧
    .left id ∉ after ∧ .departed k ∉ after

namespace Booked
variable {log : List Incident} {id : ConnectionId} {k : SourceId}

theorem retained_of_windowOpen (h : Booked m [] r log) (hopen : WindowOpen r log id k) :
    r.registry.retained.get? id = some k := by
  obtain ⟨due, after, hsince, hclock, hstays, hattended⟩ := hopen
  have haccounted := h.accounted id k due after hsince
  obtain ⟨j, hj⟩ := Option.isSome_iff_exists.mp (haccounted.kept hclock hstays hattended)
  rw [hj, haccounted.source j hj]

theorem mem_ids_of_retained (h : Booked m [] r log)
    (hk : r.registry.retained.get? id = some k) : id ∈ r.registry.ids :=
  h.kempt.retained id ((r.registry.retained.mem_ids_iff id).mpr (by simp [hk]))

theorem windowOpen_of_retained (h : Booked m [] r log) (hidle : r.Idle)
    (hk : r.registry.retained.get? id = some k) : WindowOpen r log id k := by
  obtain ⟨_, hqueue, htimers⟩ := hidle
  have hlisted := h.mem_ids_of_retained hk
  obtain ⟨j, due, after, hsince⟩ := h.logged id hlisted
  have haccounted := h.accounted id j due after hsince
  obtain rfl : k = j := haccounted.source k hk
  have hsome : (r.registry.retained.get? id).isSome := by simp [hk]
  refine ⟨due, after, hsince, ?_, haccounted.listed.mp hlisted, fun hdeparted => ?_⟩
  · rcases haccounted.waiting hsome with hnone | htimer
    · cases hnone
    · exact htimers _ htimer
  · have howed := haccounted.owed hsome hdeparted
    rw [hqueue] at howed
    cases howed

theorem retained_of_departed (h : Booked m [] r log) (hidle : r.Idle)
    {before after : List Incident} {due : Nat} (hlog : log = before ++ .departed k :: after)
    (hlisted : .listed id k due ∈ before) : r.registry.retained.get? id = none := by
  refine Option.eq_none_iff_forall_ne_some.mpr fun j hj => ?_
  obtain ⟨till, rest, hsince, _, _, hattended⟩ := h.windowOpen_of_retained hidle hj
  obtain ⟨front, back, rfl⟩ := List.append_of_mem hlisted
  have hfirst : Since log id k due (back ++ .departed k :: after) := ⟨front, by simp [hlog]⟩
  obtain ⟨rfl, rfl, rfl⟩ := h.once hfirst hsince
  exact hattended (List.mem_append_right _ List.mem_cons_self)

end Booked

theorem offers_of_tryAttach {request : Request} {name : String} {l : Listener}
    (h : r.tryAttach request name = .ok (l, s)) :
    ∃ id, r.registry.Offers request.key id l.source := by
  unfold tryAttach at h
  split at h
  · cases h
  · rename_i id k hcandidate
    split at h
    · cases h
    · rename_i hjoined
      cases h
      refine ⟨id, ?_⟩
      rw [(join?_joins hjoined).source]
      exact (Registry.candidate?_eq_some_iff.mp hcandidate).1

theorem retained_windowElapsed (r : Relay) (m : ManagerId) {id j : ConnectionId} (h : j ≠ id) :
    (r.perform (.windowElapsed m id)).registry.retained.get? j =
      r.registry.retained.get? j := by
  simp only [perform]
  split
  · rw [registry_forget, Registry.forget, Roster.get?_erase, if_neg h]
  · rfl

/-- A connection goes by a task that ends it, or because a subscriber asks for its removal. -/
theorem ends_of_left {mo : Moment} {id : ConnectionId} (h : .left id ∈ r.incidents mo) :
    ∃ d t a, mo = .deed d ∧ r.served? d = some (t, a) ∧ (r.Ends t id ∨ r.Asked id) := by
  cases mo with
  | elapse time => cases h
  | deed d =>
    simp only [incidents] at h
    cases hserved : r.served? d with
    | none =>
      simp only [hserved] at h
      cases d with
      | move v => cases v <;> simp [partings] at h
      | _ => cases h
    | some served =>
      obtain ⟨t, a⟩ := served
      simp only [hserved] at h
      have hgoes : .left id ∈ goings (r.listedBy t) (r.enact d).registry := by
        refine (List.mem_append.mp h).resolve_left fun hopening => ?_
        cases t <;> simp only [openings, List.not_mem_nil] at hopening
        split at hopening
        · split at hopening <;> simp at hopening
        · cases hopening
      obtain ⟨hid, hgone⟩ := mem_goings.mp hgoes
      rw [enact_of_served hserved] at hgone
      rw [← listedBy_agenda a t] at hid
      exact ⟨d, t, a, rfl, hserved, ends_of_perform (r := { r with agenda := a }) hid hgone⟩

theorem left_of_ends {d : Deed} {t : Task} {a : Agenda Task} {id : ConnectionId}
    (hserved : r.served? d = some (t, a)) (hid : id ∈ r.registry.ids) (h : r.Ends t id) :
    .left id ∈ r.incidents (.deed d) := by
  have hgone := not_mem_of_ends (r := { r with agenda := a }) h
  rw [← enact_of_served hserved] at hgone
  have hlisted : r.listedBy t = r.registry := by
    obtain ⟨_, _, rfl | rfl | rfl⟩ := h <;> rfl
  simp only [incidents, hserved, hlisted]
  exact List.mem_append_right _ (mem_goings.mpr ⟨hid, hgone⟩)

/-- Whatever happens, and however much time passes meanwhile: each connection is listed once, and
while its window is open, the source is retained for it. A window that elapses gives up the source
for its own connection alone. A connection that goes is ended by the task that the thread performs,
or a subscriber asks for its removal; and what a task ends goes with it. Once the thread has run all
that is queued and all timers that are due, the sources that are retained are those whose windows
are open, each for a connection that is listed; a cursor that has left has given up its source for
all connections that it had been listed under; and a request joins no source but for a connection
whose window is open. -/
theorem retained_iff_windowOpen (c : Settings) (catalog : Catalog) (moments : List Moment) :
    let r := (watch c catalog moments).1
    let log := (watch c catalog moments).2
    (∀ m id j, j ≠ id →
      (r.perform (.windowElapsed m id)).registry.retained.get? j =
        r.registry.retained.get? j) ∧
    (∀ mo id, .left id ∈ r.incidents mo →
      ∃ d t a, mo = .deed d ∧ r.served? d = some (t, a) ∧ (r.Ends t id ∨ r.Asked id)) ∧
    (∀ d t a id, r.served? d = some (t, a) → id ∈ r.registry.ids → r.Ends t id →
      .left id ∈ r.incidents (.deed d)) ∧
    (r.agenda.stopped = false →
      (∀ id j k due till after rest, Since log id j due after → Since log id k till rest →
        k = j ∧ till = due ∧ rest = after) ∧
      ∀ id k, WindowOpen r log id k → r.registry.retained.get? id = some k) ∧
    (r.Idle →
      (∀ id k, r.registry.retained.get? id = some k ↔ WindowOpen r log id k) ∧
      (∀ id k, r.registry.retained.get? id = some k → id ∈ r.registry.ids) ∧
      (∀ k before after, log = before ++ .departed k :: after →
        ∀ id due, .listed id k due ∈ before → r.registry.retained.get? id = none) ∧
      ∀ request name l s, r.tryAttach request name = .ok (l, s) →
        ∃ id, r.registry.Offers request.key id l.source ∧ WindowOpen r log id l.source) := by
  intro r log
  have hbooked : r.agenda.stopped = false → Booked 0 [] r log := booked_watch c catalog moments
  refine ⟨fun m id j => r.retained_windowElapsed m, fun _ _ => ends_of_left,
    fun _ _ _ _ => left_of_ends, fun hrunning => ⟨?_, ?_⟩, fun hidle => ?_⟩
  · exact fun _ _ _ _ _ _ _ => (hbooked hrunning).once
  · exact fun _ _ => (hbooked hrunning).retained_of_windowOpen
  · have h := hbooked hidle.1
    refine ⟨fun id k => ⟨h.windowOpen_of_retained hidle, h.retained_of_windowOpen⟩, ?_, ?_, ?_⟩
    · exact fun _ _ => h.mem_ids_of_retained
    · exact fun _ _ _ hlog _ _ => h.retained_of_departed hidle hlog
    · intro request name l s hattached
      obtain ⟨id, hoffers⟩ := offers_of_tryAttach hattached
      exact ⟨id, hoffers, h.windowOpen_of_retained hidle hoffers.2⟩

/-- The only source of `a` is listed twice, and then the first window elapses. The listener of the
other source leaves. -/
def listedTwice : List Moment :=
  let ask (name resource : String) : List Moment :=
    [.deed (.move (.add name ⟨{}, resource, "e", ""⟩)), .deed (.move .run), .deed (.move .run)]
  let leave (name : String) : List Moment :=
    [.deed (.move (.leave name)), .deed (.move .run), .deed (.move .run), .deed (.move .run)]
  [.deed (.move (.openReader "a" {} {})), .deed (.move (.openReader "b" {} {}))] ++
    ask "a" "m" ++ [.elapse 600] ++ ask "a" "m" ++ ask "b" "n" ++ leave "b" ++
    [.elapse 600, .deed (.move (.fire 0))]

theorem retained_under_second_id :
    let r := (watch { dedupWindow := 1000 } {} listedTwice).1
    let log := (watch { dedupWindow := 1000 } {} listedTwice).2
    r.Idle ∧ r.registry.retained.get? 2 = some 0 ∧ ¬WindowOpen r log 1 0 ∧
      r.registry.retained.get? 3 = none ∧
      (r.perform (.windowElapsed 0 1)).registry.retained.get? 2 = some 0 ∧
      (∀ k due after, Since log 2 k due after → due = 1600) ∧
      ∃ l s id, r.tryAttach ⟨{}, "m", "e", ""⟩ "c" = .ok (l, s) ∧
        WindowOpen r log id l.source := by
  intro r log
  have hidle : r.Idle := by decide +kernel
  have hlog : log =
      [.listed 1 0 1000, .listed 2 0 1600, .listed 3 1 1600, .departed 1, .left 3] := by
    decide +kernel
  obtain ⟨hown, _, _, hrunning, hquiet⟩ :=
    retained_iff_windowOpen { dedupWindow := 1000 } {} listedTwice
  obtain ⟨honce, hretained⟩ := hrunning hidle.1
  obtain ⟨hiff, _, hdeparted, hjoins⟩ := hquiet hidle
  have hsince : Since log 2 0 1600 [.listed 3 1 1600, .departed 1, .left 3] :=
    ⟨[.listed 1 0 1000], hlog⟩
  have hopen : WindowOpen r log 2 0 := ⟨_, _, hsince, by decide +kernel⟩
  have hover : r.registry.retained.get? 1 = none := by decide +kernel
  refine ⟨hidle, hretained 2 0 hopen, fun hfirst => ?_, ?_, ?_, ?_, ?_⟩
  · rw [(hiff 1 0).mpr hfirst] at hover
    cases hover
  · exact hdeparted 1 [.listed 1 0 1000, .listed 2 0 1600, .listed 3 1 1600] [.left 3] hlog 3 1600
      (by decide)
  · exact (hown 0 1 2 (by decide)).trans (hretained 2 0 hopen)
  · exact fun _ _ _ hother => (honce _ _ _ _ _ _ _ hsince hother).2.1
  · cases hattached : r.tryAttach ⟨{}, "m", "e", ""⟩ "c" with
    | ok p =>
      obtain ⟨id, _, hwindow⟩ := hjoins _ _ p.1 p.2 hattached
      exact ⟨p.1, p.2, id, rfl, hwindow⟩
    | error cause =>
      have hok : (r.tryAttach ⟨{}, "m", "e", ""⟩ "c").isOk = true := by decide +kernel
      rw [hattached] at hok
      cases hok

end MediaRelay.Relay
