import MediaRelay.Proofs.Relay.Turns
import MediaRelay.Service.ConnectionManager

/-! # Announcements

Each turn of the table posts an announcement, and control points are told when its task is run, of
the ids that are listed by then. So the turns are those that have been announced and those whose
announcement is on its way, and once none is on its way, what has been told last is what is listed.
To close the table is not announced, so nobody does it here.
-/
namespace MediaRelay

def events (journal : List Entry) : List (Option String) :=
  journal.filterMap fun
    | .event ids => some ids
    | _ => none

def Task.announces : Task → Bool
  | .announce => true
  | _ => false

/-- The table is not closed, and control points are told of nothing but announcements. -/
def Task.open : Task → Bool
  | .close _ => false
  | .enter (.event _) => false
  | _ => true

theorem Task.open_of_hangs {t : Task} (h : t.hangs = true) : t.open = true := by
  cases t with
  | enter e => cases e <;> first | rfl | cases h
  | _ => first | rfl | cases h

theorem Task.not_announces_of_hangs {t : Task} (h : t.hangs = true) : t.announces = false := by
  cases t with
  | announce => cases h
  | _ => rfl

theorem open_of_asks {d : Deed} (hd : d ≠ .move .close) {t : Task} (h : d.Asks t) :
    t.open = true ∧ t.announces = false := by
  cases h with
  | close => exact absurd rfl hd
  | _ => exact ⟨rfl, rfl⟩

namespace Relay
variable {r s t : Relay} {d : Deed} {log more : List Turn}

def announcements (r : Relay) : Nat := r.agenda.queue.countP Task.announces

theorem announcements_of_appends {P : Task → Prop} (h : Appends P r s)
    (hP : ∀ t, P t → t.announces = false) : s.announcements = r.announcements := by
  obtain ⟨ts, hts, hkind⟩ := h.queue
  have hnone : ts.countP Task.announces = 0 := by
    refine List.countP_eq_zero.mpr fun t ht => Bool.eq_false_iff.mp ?_
    rcases hkind t ht with hhangs | hp
    · exact Task.not_announces_of_hangs hhangs
    · exact hP t hp
  rw [announcements, hts, List.countP_append, hnone, Nat.add_zero, ← announcements]

theorem announcements_post (h : r.agenda.stopped = false) (t : Task) :
    (r.post t).announcements = r.announcements + [t].countP Task.announces := by
  simp only [announcements, post, Agenda.post_of_running h, List.countP_append]

/-- The thread has done its work and each turn is on its way to control points. -/
structure Announced (r : Relay) (log : List Turn) (s : Relay) : Prop where
  turned : Turned r log s
  running : s.agenda.stopped = false
  hung : s.Hung
  told : events s.journal = events r.journal
  pending : s.announcements = r.announcements + log.length

namespace Announced

theorem trans (h : Announced r log s) (h' : Announced s more t) : Announced r (log ++ more) t where
  turned := h.turned.trans h'.turned
  running := h'.running
  hung := h'.hung
  told := h'.told.trans h.told
  pending := by
    rw [h'.pending, h.pending, List.length_append, Nat.add_assoc]

theorem of_eq (hr : r.agenda.stopped = false) (hh : r.Hung) (hturned : Turned r [] s)
    (hagenda : s.agenda = r.agenda) (hchannels : s.channels = r.channels)
    (htold : events s.journal = events r.journal) :
    Announced r [] s where
  turned := hturned
  running := by rw [hagenda, hr]
  hung := ⟨hchannels ▸ hh.sources, hagenda ▸ hh.timers⟩
  told := htold
  pending := by simp [announcements, hagenda]

theorem refl (hr : r.agenda.stopped = false) (hh : r.Hung) : Announced r [] r :=
  of_eq hr hh (.refl r) rfl rfl rfl

theorem forget (hr : r.agenda.stopped = false) (hh : r.Hung) (id : ConnectionId) :
    Announced r [] (r.forget id) := by
  have happends : Appends (fun _ => False) r (r.forget id) := .forget hh id
  refine ⟨r.turned_forget id, happends.stopped.trans hr, happends.hung, ?_, ?_⟩
  · rw [journal_forget]
  · exact announcements_of_appends happends fun _ hp => hp.elim

theorem post (hr : s.agenda.stopped = false) (hh : s.Hung) {turn : Turn}
    (h : Turned r [turn] (s.post .announce)) (htold : events s.journal = events r.journal)
    (hpending : s.announcements = r.announcements) : Announced r [turn] (s.post .announce) where
  turned := h
  running := by simp only [Relay.post, Agenda.post_of_running hr, hr]
  hung := (Appends.post (P := (· = .announce)) hh (Or.inr rfl)).hung
  told := htold
  pending := by
    rw [announcements_post hr, hpending]
    rfl

end Announced

theorem telling_announced :
    Telling fun r s => r.agenda.stopped = false → r.Hung →
      ∃ gone : List ConnectionId, Announced r (gone.map .left) s where
  refl := fun _ hr hh => ⟨[], .refl hr hh⟩
  trans := by
    intro r s t h h' hr hh
    obtain ⟨gone, hgone⟩ := h hr hh
    obtain ⟨others, hothers⟩ := h' hgone.running hgone.hung
    refine ⟨gone ++ others, ?_⟩
    rw [List.map_append]
    exact hgone.trans hothers
  tells := fun r _ _ hr hh => ⟨[], .of_eq hr hh (.of_eq rfl rfl) rfl rfl (by simp [enter, events])⟩
  renounce := fun _ _ hr hh => ⟨[], .of_eq hr hh (.of_eq rfl rfl) rfl rfl rfl⟩
  unsubscribe := fun r _ hr hh =>
    ⟨[], .of_eq hr hh (.updateRegistry r (fun _ => rfl) fun _ h => ⟨h.1, h.2⟩) rfl rfl rfl⟩
  delist := by
    intro r id hlisted hr hh
    have hforget := Announced.forget (r := r.updateRegistry (·.delist id)) hr ⟨hh.1, hh.2⟩ id
    exact ⟨[id], .post hforget.running hforget.hung (turned_delist hlisted) hforget.told
      hforget.pending⟩

theorem announced_remove (hr : r.agenda.stopped = false) (hh : r.Hung) (id : ConnectionId) :
    ∃ log, Announced r log (remove id r) := by
  obtain ⟨gone, hgone⟩ := telling_announced.remove id r hr hh
  exact ⟨_, hgone⟩

theorem announced_add {m : Manager} (hm : r.manager = some m) (hr : r.agenda.stopped = false)
    (hh : r.Hung) (request : Request) (k : SourceId) :
    ∃ log, Announced r log (add m request k r) := by
  have happends := announces_listing m request k r hh
  have hqueue : (listing m request k r).agenda.queue = r.agenda.queue := by
    change (r.agenda.timer _ _).queue = _
    unfold Agenda.timer
    split <;> rfl
  have hlisting : Announced r _ ((listing m request k r).post .announce) :=
    .post (happends.stopped.trans hr) happends.hung (turned_listing hm request k) rfl
      (by rw [announcements, hqueue, ← announcements])
  obtain ⟨gone, hgone⟩ := telling_announced.tellAll telling_announced.remove
    (listing m request k r).registry.count _ hlisting.running hlisting.hung
  rw [add_eq]
  exact ⟨_, hlisting.trans hgone⟩

theorem announced_perform (hr : r.agenda.stopped = false) (hh : r.Hung) {t : Task}
    (hopen : t.open = true) (ht : t.announces = false) :
    ∃ log, Announced r log (r.perform t) := by
  have hif : ∀ (b : Bool) {s}, (∃ log, Announced r log s) →
      ∃ log, Announced r log (if b then s else r) := by
    intro b s hs
    cases b with
    | true => exact hs
    | false => exact ⟨[], .refl hr hh⟩
  cases t with
  | add m request k =>
    simp only [perform]
    split
    · split
      · rename_i hm _
        exact announced_add hm hr hh request k
      · exact ⟨[], .refl hr hh⟩
    · exact ⟨[], .refl hr hh⟩
  | remove m id => exact hif _ (announced_remove hr hh id)
  | close m => cases hopen
  | subscribe m s =>
    exact hif _ ⟨[], .of_eq hr hh (.updateRegistry r (fun _ => rfl) fun _ h => ⟨h.1, h.2⟩)
      rfl rfl rfl⟩
  | unsubscribe m id =>
    exact hif _ ⟨[], .of_eq hr hh (.updateRegistry r (fun _ => rfl) fun _ h => ⟨h.1, h.2⟩)
      rfl rfl rfl⟩
  | sourceClosed m id => exact hif _ (announced_remove hr hh id)
  | cursorLeft m id => exact hif _ ⟨[], .forget hr hh id⟩
  | windowElapsed m id => exact hif _ ⟨[], .forget hr hh id⟩
  | announce => cases ht
  | enter e =>
    refine ⟨[], .of_eq hr hh (.of_eq rfl rfl) rfl rfl ?_⟩
    cases e with
    | event ids => cases hopen
    | _ => simp [perform, enter, events]

/-! ## From one task to all -/

/-- What holds of a relay that nobody closes and whose thread nobody stops. -/
structure Evented (r : Relay) : Prop where
  running : r.agenda.stopped = false
  managed : r.manager.isSome = true
  hung : r.Hung
  queued : ∀ t ∈ r.agenda.queue, t.open = true
  /-- All turns have been announced but those whose announcement is on its way. -/
  balance : ∃ log, Registry.empty.table.Turns log r.registry.table ∧
    (events r.journal).length + r.announcements = log.length
  /-- With no announcement on its way, nothing has changed since the last event. -/
  current : r.announcements = 0 → ∀ ids, (events r.journal).getLast? = some ids →
    ids = some r.registry.idList

namespace Evented

theorem manager (h : r.Evented) : ∃ m, r.manager = some m ∧ m.registry = r.registry := by
  obtain ⟨m, hm⟩ := Option.isSome_iff_exists.mp h.managed
  exact ⟨m, hm, by simp [registry, hm]⟩

theorem announced (h : r.Evented) (hturns : Announced t log s) (hregistry : t.registry = r.registry)
    (hmanager : t.manager = r.manager) (hjournal : t.journal = r.journal)
    (hpending : t.announcements = r.announcements)
    (hqueued : ∀ u ∈ s.agenda.queue, u.open = true) : s.Evented where
  running := hturns.running
  managed := by
    have hsame := congrArg Option.isSome hturns.turned.manager
    rw [Option.isSome_map, Option.isSome_map, hmanager] at hsame
    exact hsame.trans h.managed
  hung := hturns.hung
  queued := hqueued
  balance := by
    obtain ⟨before, hbefore, hbalance⟩ := h.balance
    refine ⟨before ++ log, hbefore.trans (hregistry ▸ hturns.turned.turns), ?_⟩
    rw [hturns.told, hjournal, hturns.pending, hpending, List.length_append]
    omega
  current := by
    intro hnone ids hids
    rw [hturns.pending, hpending] at hnone
    have hlog : log = [] := List.eq_nil_of_length_eq_zero (by omega)
    have hturn := hturns.turned.turns
    rw [hlog, hregistry] at hturn
    have hids' : s.registry.ids = r.registry.ids := congrArg Table.ids hturn.eq_of_nil
    rw [hturns.told, hjournal] at hids
    rw [h.current (by omega) ids hids, Registry.idList, Registry.idList, hids']

theorem announce (h : r.Evented) {rest : List Task} (hq : r.agenda.queue = .announce :: rest) :
    ({ r with agenda := { r.agenda with queue := rest } }.perform .announce).Evented := by
  obtain ⟨m, hm, hregistry⟩ := h.manager
  let s : Relay := { r with agenda := { r.agenda with queue := rest } }.perform .announce
  have htold : events s.journal = events r.journal ++ [some r.registry.idList] := by
    simp [s, perform, enter, events, hm, hregistry]
  have hpending : r.announcements = s.announcements + 1 := by
    rw [announcements, hq]
    exact List.countP_cons_of_pos rfl
  refine
    { running := h.running
      managed := h.managed
      hung := ⟨h.hung.sources, h.hung.timers⟩
      queued := ?_
      balance := ?_
      current := ?_ }
  · intro t ht
    exact h.queued t (hq ▸ List.mem_cons_of_mem _ ht)
  · obtain ⟨log, hlog, hbalance⟩ := h.balance
    refine ⟨log, hlog, ?_⟩
    change (events s.journal).length + s.announcements = log.length
    rw [htold, List.length_append, List.length_singleton]
    omega
  · intro _ ids hids
    change (events s.journal).getLast? = some ids at hids
    rw [htold, List.getLast?_concat, Option.some.injEq] at hids
    exact hids.symm

theorem serve (h : r.Evented) {t : Task} {a : Agenda Task} (htaken : r.Taken t a) :
    ({ r with agenda := a }.perform t).Evented := by
  have hopen : t.open = true := by
    rcases htaken.mem_or_hangs h.hung with hqueued | hhangs
    · exact h.queued t hqueued
    · exact Task.open_of_hangs hhangs
  cases hann : t.announces with
  | true =>
    cases t with
    | announce =>
      cases htaken with
      | queued hq => exact h.announce hq
      | due hu ht =>
        have hhangs := h.hung.timers _ hu
        rw [ht] at hhangs
        cases hhangs
    | _ => cases hann
  | false =>
    let taken : Relay := { r with agenda := a }
    have hung : taken.Hung := htaken.hung h.hung
    have hpending : taken.announcements = r.announcements := by
      cases htaken with
      | queued hq =>
        rw [announcements, announcements, hq]
        exact (List.countP_cons_of_neg (Bool.eq_false_iff.mp hann)).symm
      | due _ _ hq => rw [announcements, announcements, hq]
    obtain ⟨log, hturns⟩ :=
      announced_perform (r := taken) (htaken.stopped.trans h.running) hung hopen hann
    refine h.announced hturns rfl rfl rfl hpending ?_
    obtain ⟨ts, hts, hkind⟩ := (announces_perform taken t hung).queue
    rw [hts]
    intro u hu
    rcases List.mem_append.mp hu with hold | hnew
    · exact h.queued u (htaken.queue hold)
    · rcases hkind u hnew with hhangs | rfl
      · exact Task.open_of_hangs hhangs
      · rfl

theorem enact (h : r.Evented) (hclose : d ≠ .move .close) (hstop : d ≠ .stop) :
    (r.enact d).Evented := by
  cases hserved : r.served? d with
  | none =>
    cases hd : Deed.overrides d with
    | false =>
      have haside := aside_enact hserved hd
      have happends := haside.appends h.hung
      have hregistry : (r.enact d).registry = r.registry := by
        rw [registry, registry, haside.manager]
      have hopen : ∀ t, d.Asks t → t.open = true ∧ t.announces = false :=
        fun t ht => open_of_asks hclose ht
      have hturns : Announced r [] (r.enact d) :=
        { turned := .of_eq hregistry (by rw [haside.manager])
          running := happends.stopped.trans h.running
          hung := happends.hung
          told := by rw [haside.journal]
          pending := announcements_of_appends happends fun t ht => (hopen t ht).2 }
      refine h.announced hturns rfl rfl rfl rfl ?_
      obtain ⟨ts, hts, hkind⟩ := happends.queue
      rw [hts]
      intro t ht
      rcases List.mem_append.mp ht with hold | hnew
      · exact h.queued t hold
      · rcases hkind t hnew with hhangs | hasks
        · exact Task.open_of_hangs hhangs
        · exact (hopen t hasks).1
    | true =>
      cases d with
      | stop => exact absurd rfl hstop
      | strike id =>
        simp only [Relay.enact, h.running, Bool.false_eq_true, if_false]
        exact h
      | _ => cases hd
  | some served =>
    obtain ⟨t, a⟩ := served
    rw [enact_of_served hserved]
    exact h.serve (taken_of_served hserved)

theorem foldl (h : r.Evented) {deeds : List Deed} (hclose : .move .close ∉ deeds)
    (hstop : .stop ∉ deeds) : (deeds.foldl Relay.enact r).Evented := by
  induction deeds generalizing r with
  | nil => exact h
  | cons d rest ih =>
    have hd := h.enact (fun he => hclose (he ▸ List.mem_cons_self))
      fun he => hstop (he ▸ List.mem_cons_self)
    exact ih hd (fun hm => hclose (List.mem_cons_of_mem _ hm))
      fun hm => hstop (List.mem_cons_of_mem _ hm)

theorem settling (h : r.Evented) : r.Settling := h.hung.settling h.running

end Evented

theorem evented_start (c : Settings) (catalog : Catalog) : (runDeeds c catalog []).Evented where
  running := rfl
  managed := rfl
  hung := hung_start c catalog
  queued := by
    intro t ht
    cases ht
  balance := ⟨[], .nil _, rfl⟩
  current := by
    intro _ ids hids
    cases hids

theorem evented_runDeeds (c : Settings) (catalog : Catalog) {deeds : List Deed}
    (hclose : .move .close ∉ deeds) (hstop : .stop ∉ deeds) :
    (runDeeds c catalog deeds).Evented := (evented_start c catalog).foldl hclose hstop

/-- As many turns lie between two states of a relay as events and announcements have been added. -/
theorem Evented.length_eq {deeds : List Deed} (h : r.Evented) (h' : s.Evented)
    (hlog : History r deeds log s) :
    (events s.journal).length + s.announcements =
      (events r.journal).length + r.announcements + log.length := by
  obtain ⟨before, hbefore, hbalance⟩ := h.balance
  obtain ⟨all, hall, hbalance'⟩ := h'.balance
  have hlength := hall.length_unique (hbefore.trans hlog.turns)
  rw [List.length_append] at hlength
  omega

theorem get?_evented (catalog : Catalog) (g : Registry) :
    (ConnectionManagerService.evented catalog g).get? "CurrentConnectionIDs" = some g.idList := by
  simp [ConnectionManagerService.evented, PropertySet.get?, PropertySet.add, PropertySet.empty]

/-- After any deeds but to close the table or to stop the thread: as many turns as the table has
taken, additions and removals, so many events have been told or are on their way. With the queue
empty, what has been told last is what the service says now. An id that enters and leaves between
two such states leaves the ids as they were, with two events. And tasks that are run, and nothing
else, empty the queue. -/
theorem every_turn_is_announced (c : Settings) (catalog : Catalog) (deeds more : List Deed)
    (hclose : .move .close ∉ deeds ++ more) (hstop : .stop ∉ deeds ++ more) :
    let r := runDeeds c catalog deeds
    let s := runDeeds c catalog (deeds ++ more)
    (∃ log, History (runDeeds c catalog []) deeds log r ∧
        (events r.journal).length + r.announcements =
          (entries log).length + (departures log).length) ∧
      (r.agenda.queue = [] → r.announcements = 0 ∧
        ∀ ids, (events r.journal).getLast? = some ids →
          ids = some (commaJoined (r.registry.ids.map toString)) ∧
          ids = (ConnectionManagerService.evented catalog r.registry).get?
            "CurrentConnectionIDs") ∧
      (∀ id, History r more [.entered id, .left id] s →
        r.agenda.queue = [] → s.agenda.queue = [] →
          s.registry.idList = r.registry.idList ∧
            (events s.journal).length = (events r.journal).length + 2) ∧
      ∃ n, r.drain = runDeeds c catalog (deeds ++ List.replicate n (.move .run)) ∧
        r.drain.agenda.queue = [] := by
  intro r s
  have hr : r.Evented := evented_runDeeds c catalog
    (fun h => hclose (List.mem_append_left _ h)) fun h => hstop (List.mem_append_left _ h)
  have hs : s.Evented := evented_runDeeds c catalog hclose hstop
  have hempty : ∀ {t : Relay}, t.agenda.queue = [] → t.announcements = 0 := by
    intro t ht
    rw [announcements, ht]
    rfl
  refine ⟨?_, ?_, ?_, ?_⟩
  · obtain ⟨log, hlog⟩ := exists_history (runDeeds c catalog []) deeds
    have hlength := (evented_start c catalog).length_eq hr hlog
    have hnone : (events (runDeeds c catalog []).journal).length = 0 := rfl
    have hidle : (runDeeds c catalog []).announcements = 0 := rfl
    refine ⟨log, hlog, ?_⟩
    rw [← length_eq_add]
    omega
  · intro hqueue
    refine ⟨hempty hqueue, fun ids hids => ?_⟩
    have hnow := hr.current (hempty hqueue) ids hids
    exact ⟨hnow, hnow.trans (get?_evented catalog r.registry).symm⟩
  · intro id hlog hqueue hqueue'
    have hids : s.registry.ids = r.registry.ids := hlog.turns.ids_of_undone
    have hlength := hr.length_eq hs hlog
    refine ⟨by rw [Registry.idList, Registry.idList, hids], ?_⟩
    rw [hempty hqueue, hempty hqueue'] at hlength
    exact hlength
  · obtain ⟨n, hn⟩ := r.exists_runDeeds_drain
    refine ⟨n, ?_, (drained_drain hr.settling).queue⟩
    rw [hn, runDeeds, List.foldl_append]
    rfl

def listedAndRemoved : List Deed :=
  [.own {} {}, .list ⟨{}, "m", "e", ""⟩ 0, .move .run, .move .run, .move (.remove 1), .move .run,
    .move .run]

theorem addition_and_removal_announced :
    let r := runDeeds {} {} listedAndRemoved
    .move .close ∉ listedAndRemoved ++ [] ∧ .stop ∉ listedAndRemoved ++ [] ∧
      r.agenda.queue = [] ∧ events r.journal = [some "1", some ""] ∧
      ∃ log, History (runDeeds {} {} []) listedAndRemoved log r ∧
        (entries log).length + (departures log).length = 2 := by
  have hclose : .move .close ∉ listedAndRemoved ++ [] := by simp [listedAndRemoved]
  have hstop : .stop ∉ listedAndRemoved ++ [] := by simp [listedAndRemoved]
  have htold : events (runDeeds {} {} listedAndRemoved).journal = [some "1", some ""] := by
    decide +kernel
  obtain ⟨⟨log, hlog, hlength⟩, _⟩ := every_turn_is_announced {} {} listedAndRemoved [] hclose hstop
  have hqueue : (runDeeds {} {} listedAndRemoved).agenda.queue = [] := by
    refine List.eq_nil_of_length_eq_zero ?_
    decide +kernel
  refine ⟨hclose, hstop, hqueue, htold, log, hlog, ?_⟩
  rw [htold, announcements, hqueue] at hlength
  exact hlength.symm

end Relay
end MediaRelay
