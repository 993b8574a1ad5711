import MediaRelay.Proofs.Relay.Changes
import MediaRelay.Proofs.Relay.Offers

/-! # What keeps sources alive

As long as sources are listed for their listeners only, whatever is retained is alive: whoever waits
for a listing keeps the source until it is retained, and what is retained is held. No deed breaks
this, whether or not the thread has been stopped.
-/
namespace MediaRelay

/-- No cursor has a number that is still to be given. -/
def Channel.Issues (c : Channel) : Prop :=
  ∀ id, (c.feed.source.cursors.get? id).isSome → id < c.feed.source.nextCursor

namespace Relay
variable {r s : Relay}

/-- Sources that somebody listens to, or that are retained, are alive. What is retained for a
connection is what is listed with it, and what is to be listed has a listener. -/
structure Anchored (r : Relay) : Prop where
  hung : r.Hung
  numbered : ∀ k c, r.channels.get? k = some c → k < r.nextSource
  issued : ∀ k c, r.channels.get? k = some c → c.Issues
  alive : ∀ k, r.Heard k ∨ r.Retained k → (r.channels.get? k).isSome
  agreed : ∀ id n k, r.registry.connections.get? id = some n →
    r.registry.retained.get? id = some k → n.source = k
  asked : ∀ t ∈ r.agenda.queue, ∀ k, adds? t = some k → r.Heard k

theorem issues_of_outline {c d : Channel} (h : c.Issues) (ho : outline d = outline c) :
    d.Issues := by
  intro id hid
  have hnext : d.feed.source.nextCursor = c.feed.source.nextCursor :=
    congrArg Outline.nextCursor ho
  rw [hnext]
  exact h id ((congrFun (congrArg Outline.hasCursor ho) id).symm.trans hid)

theorem issues_seating {c : Channel} (h : c.Issues) : (seating c).Issues := by
  intro id hid
  rcases (hasCursor_seating c id).mp hid with rfl | hid
  · exact Nat.lt_succ_self _
  · exact Nat.lt_succ_of_lt (h id hid)

namespace Anchored

theorem fresh (h : r.Anchored) : r.channels.get? r.nextSource = none :=
  Option.eq_none_iff_forall_ne_some.mpr fun c hc => Nat.lt_irrefl _ (h.numbered r.nextSource c hc)

/-- Of the thread and of what is posted nothing changes but that tasks come of which none lists a
source without a listener. -/
theorem appends {P : Task → Prop} (h : r.Anchored) (ha : Appends P r s)
    (hlisteners : s.listeners = r.listeners) (hchannels : s.channels = r.channels)
    (hnext : s.nextSource = r.nextSource) (hregistry : s.registry = r.registry)
    (hP : ∀ t, P t → ∀ k, adds? t = some k → r.Heard k) : s.Anchored where
  hung := ha.hung
  numbered := by
    rw [hchannels, hnext]
    exact h.numbered
  issued := by
    rw [hchannels]
    exact h.issued
  alive := by
    simp only [Heard, Retained, hlisteners, hregistry, hchannels]
    exact h.alive
  agreed := by
    rw [hregistry]
    exact h.agreed
  asked := by
    obtain ⟨ts, hqueue, hts⟩ := ha.queue
    simp only [Heard, hlisteners, hqueue]
    intro t ht k hk
    rcases List.mem_append.mp ht with ht | ht
    · exact h.asked t ht k hk
    · rcases hts t ht with hhangs | hnew
      · rw [adds?_of_hangs hhangs] at hk
        cases hk
      · exact hP t hnew k hk

theorem postAll (h : r.Anchored) {ts : List Task} (hts : ∀ t ∈ ts, t.hangs = true) :
    Anchored { r with agenda := r.agenda.postAll ts } :=
  h.appends (P := fun _ => False) (.postAll h.hung fun t ht => Or.inl (hts t ht)) rfl rfl rfl rfl
    fun _ hfalse => hfalse.elim

theorem post (h : r.Anchored) {t : Task} (ht : ∀ k, adds? t = some k → r.Heard k) :
    (r.post t).Anchored := by
  refine h.appends (P := (· = t)) (.post h.hung (Or.inr rfl)) rfl rfl rfl rfl ?_
  rintro _ rfl
  exact ht

theorem less (h : r.Anchored) (hagenda : s.agenda = r.agenda)
    (hlisteners : s.listeners = r.listeners) (hchannels : s.channels = r.channels)
    (hnext : s.nextSource = r.nextSource)
    (hconnections : ∀ id n, s.registry.connections.get? id = some n →
      r.registry.connections.get? id = some n)
    (hretained : ∀ id k, s.registry.retained.get? id = some k →
      r.registry.retained.get? id = some k) : s.Anchored where
  hung := ⟨hchannels ▸ h.hung.sources, hagenda ▸ h.hung.timers⟩
  numbered := by
    rw [hchannels, hnext]
    exact h.numbered
  issued := by
    rw [hchannels]
    exact h.issued
  alive := by
    intro k hk
    rw [hchannels]
    refine h.alive k (hk.imp ?_ ?_)
    · simp only [Heard, hlisteners]
      exact id
    · rintro ⟨id, hid⟩
      exact ⟨id, hretained id k hid⟩
  agreed := fun id n k hn hk => h.agreed id n k (hconnections id n hn) (hretained id k hk)
  asked := by
    simp only [Heard, hlisteners, hagenda]
    exact h.asked

theorem updateRegistry (h : r.Anchored) {f : Registry → Registry}
    (hconnections : ∀ g id n, (f g).connections.get? id = some n → g.connections.get? id = some n)
    (hretained : ∀ g id k, (f g).retained.get? id = some k → g.retained.get? id = some k) :
    (r.updateRegistry f).Anchored := by
  rcases r.registry_updateRegistry_cases f with he | he
  · exact h.less rfl rfl rfl rfl (by simp [he]) (by simp [he])
  · refine h.less rfl rfl rfl rfl ?_ ?_
    · rw [he]
      exact hconnections r.registry
    · rw [he]
      exact hretained r.registry

theorem reap (h : r.Anchored) (k : SourceId) : (r.reap k).Anchored := by
  rcases r.reap_cases k with ⟨he, _⟩ | ⟨c, hc, hfree, he⟩
  · rw [he]
    exact h
  · let gone : Relay := { r with channels := r.channels.erase k }
    have hget : ∀ j d, gone.channels.get? j = some d → r.channels.get? j = some d := by
      intro j d hd
      simp only [gone, Roster.get?_erase, Option.ite_none_left_eq_some] at hd
      exact hd.2
    have hgone : gone.Anchored := by
      refine ⟨⟨?_, h.hung.timers⟩, ?_, ?_, ?_, h.agreed, h.asked⟩
      · exact fun j d hd => h.hung.sources j d (hget j d hd)
      · exact fun j d hd => h.numbered j d (hget j d hd)
      · exact fun j d hd => h.issued j d (hget j d hd)
      · intro j hj
        have hne : j ≠ k := by
          rintro rfl
          have hheld := (r.isHeld_iff j).mpr (Or.inr hj)
          rw [hfree] at hheld
          cases hheld
        simp only [gone, Roster.get?_erase, if_neg hne]
        exact h.alive j hj
    rw [he]
    exact hgone.postAll fun t ht => h.hung.sources k c hc t (List.mem_append_right _ ht)

theorem forget (h : r.Anchored) (id : ConnectionId) : (r.forget id).Anchored := by
  unfold Relay.forget
  split
  · exact h
  · have hforgotten : (r.updateRegistry (·.forget id)).Anchored := by
      refine h.updateRegistry (fun _ _ _ hn => hn) fun g i k hk => ?_
      simp only [Registry.forget, Roster.get?_erase, Option.ite_none_left_eq_some] at hk
      exact hk.2
    exact hforgotten.reap _

/-! ## The thread -/

theorem kept : Kept fun r s => r.Anchored → s.Anchored where
  refl := fun _ h => h
  trans := fun h h' hr => h' (h hr)
  enter := fun _ _ hr => hr.less rfl rfl rfl rfl (fun _ _ hn => hn) fun _ _ hk => hk
  renounce := fun _ _ hr => hr.less rfl rfl rfl rfl (fun _ _ hn => hn) fun _ _ hk => hk
  subscribe := fun _ _ hr => hr.updateRegistry (fun _ _ _ hn => hn) fun _ _ _ hk => hk
  unsubscribe := fun _ _ hr => hr.updateRegistry (fun _ _ _ hn => hn) fun _ _ _ hk => hk
  forget := fun _ id hr => hr.forget id
  delistAll := by
    refine fun _ hr => hr.updateRegistry ?_ fun _ _ _ hk => hk
    intro g id n hn
    cases hn
  delist := by
    intro r id _ hr
    have hdelisted : (r.updateRegistry (·.delist id)).Anchored :=
      hr.updateRegistry (fun _ _ _ hn => (get?_delist hn).2) fun _ _ _ hk => hk
    refine (hdelisted.forget id).post ?_
    rintro k ⟨⟩

theorem listing (h : r.Anchored) {m : Manager} (hm : r.manager = some m) (request : Request)
    {k : SourceId} (hk : r.Heard k) : (listing m request k r).Anchored := by
  obtain ⟨c, hc⟩ := Option.isSome_iff_exists.mp (h.alive k (Or.inl hk))
  have hlisted := listed_listing hm request hc
  have hseats := hlisted.sameSeats
  refine
    { hung := (announces_listing m request k r h.hung).hung
      numbered := ?_
      issued := ?_
      alive := ?_
      agreed := ?_
      asked := ?_ }
  · intro j d hd
    obtain ⟨b, hb, _⟩ := hseats.channel hd
    exact hlisted.nextSource ▸ h.numbered j b hb
  · intro j d hd
    obtain ⟨b, hb, ho⟩ := hseats.channel hd
    exact issues_of_outline (h.issued j b hb) ho.symm
  · intro j hj
    rw [hseats.isSome_iff]
    rcases hj with hheard | ⟨id, hid⟩
    · exact h.alive j (Or.inl ((hlisted.heard_iff j).mp hheard))
    · rw [hlisted.retained] at hid
      split at hid
      · cases hid
        exact h.alive k (Or.inl hk)
      · exact h.alive j (Or.inr ⟨id, hid⟩)
  · intro id n j hn hj
    rw [hlisted.connections] at hn
    rw [hlisted.retained] at hj
    split at hn
    · rename_i hid
      rw [if_pos hid] at hj
      cases hn
      cases hj
      rfl
    · rename_i hid
      rw [if_neg hid] at hj
      exact h.agreed id n j hn hj
  · intro t ht j hj
    rw [hlisted.queue] at ht
    exact (hlisted.heard_iff j).mpr (h.asked t ht j hj)

theorem perform (h : r.Anchored) {t : Task} (ht : ∀ k, adds? t = some k → r.Heard k) :
    (r.perform t).Anchored := by
  refine kept.perform_of_listing r t ?_ h
  rintro m request k rfl hm hr
  refine (hr.listing hm request (ht k rfl)).post ?_
  rintro k ⟨⟩

theorem heard_of_taken (h : r.Anchored) {t : Task} {a : Agenda Task} (ht : r.Taken t a)
    {k : SourceId} (hk : adds? t = some k) : r.Heard k := by
  rcases ht.mem_or_hangs h.hung with hqueue | hhangs
  · exact h.asked t hqueue k hk
  · rw [adds?_of_hangs hhangs] at hk
    cases hk

theorem taken (h : r.Anchored) {t : Task} {a : Agenda Task} (ht : r.Taken t a) :
    Anchored { r with agenda := a } :=
  ⟨ht.hung h.hung, h.numbered, h.issued, h.alive, h.agreed, fun u hu => h.asked u (ht.queue hu)⟩

theorem served (h : r.Anchored) {d : Deed} {t : Task} {a : Agenda Task}
    (hserved : r.served? d = some (t, a)) : (r.enact d).Anchored := by
  have htaken := taken_of_served hserved
  rw [enact_of_served hserved]
  exact (h.taken htaken).perform fun k hk => h.heard_of_taken htaken hk

/-! ## Sources and listeners -/

theorem updateChannel (h : r.Anchored) (k : SourceId) {f : Channel → Channel}
    (hissues : ∀ c : Channel, c.Issues → (f c).Issues)
    (hhangs : ∀ c, (∀ t ∈ c.onDetach ++ c.onClose, t.hangs = true) →
      ∀ t ∈ (f c).onDetach ++ (f c).onClose, t.hangs = true) : (r.updateChannel k f).Anchored := by
  have hget : ∀ j d, (r.updateChannel k f).channels.get? j = some d →
      ∃ b, r.channels.get? j = some b ∧ (b.Issues → d.Issues) := by
    intro j d hd
    simp only [Relay.updateChannel, Roster.get?_modify] at hd
    split at hd
    · obtain ⟨b, hb, rfl⟩ := Option.map_eq_some_iff.mp hd
      exact ⟨b, hb, hissues b⟩
    · exact ⟨d, hd, id⟩
  refine
    { hung := (Appends.updateChannel (P := fun _ => False) h.hung k hhangs).hung
      numbered := ?_
      issued := ?_
      alive := ?_
      agreed := h.agreed
      asked := h.asked }
  · intro j d hd
    obtain ⟨b, hb, _⟩ := hget j d hd
    exact h.numbered j b hb
  · intro j d hd
    obtain ⟨b, hb, hbd⟩ := hget j d hd
    exact hbd (h.issued j b hb)
  · intro j hj
    have hbefore := h.alive j hj
    simp only [Relay.updateChannel, Roster.get?_modify]
    split
    · simpa using hbefore
    · exact hbefore

theorem updateFeed (h : r.Anchored) (k : SourceId) {f : Feed → Feed}
    (hf : ∀ g : Feed, g.source.SeatsAlike (f g).source) :
    (r.updateChannel k fun c => { c with feed := f c.feed }).Anchored :=
  h.updateChannel k (fun c hc => issues_of_outline hc (outline_of_seatsAlike (hf c.feed)))
    fun _ ht => ht

theorem openSource (h : r.Anchored) (z : Sizing) (i : Input) (owned : Bool) :
    (r.openSource z i owned).2.Anchored := by
  have hget : ∀ j c, (r.openSource z i owned).2.channels.get? j = some c →
      (j = r.nextSource ∧ c = { feed := .start z i, owned := owned }) ∨
        r.channels.get? j = some c := by
    intro j c hc
    simp only [Relay.openSource, Roster.get?_put] at hc
    split at hc
    · rename_i hj
      exact Or.inl ⟨hj, (Option.some.inj hc).symm⟩
    · exact Or.inr hc
  refine
    { hung := ((Aside.openSource (P := fun _ => False) r z i owned).appends h.hung).hung
      numbered := ?_
      issued := ?_
      alive := ?_
      agreed := h.agreed
      asked := h.asked }
  · intro j c hc
    rcases hget j c hc with ⟨rfl, _⟩ | hold
    · exact Nat.lt_succ_self _
    · exact Nat.lt_succ_of_lt (h.numbered j c hold)
  · intro j c hc
    rcases hget j c hc with ⟨_, rfl⟩ | hold
    · intro id hid
      cases hid
    · exact h.issued j c hold
  · intro j hj
    simp only [Relay.openSource, Roster.get?_put]
    split
    · rfl
    · exact h.alive j hj

theorem joined {k : SourceId} {name : String} {c : Channel} (h : r.Anchored)
    (hname : r.listeners.get? name = none) (hung : s.Hung) (hj : Joined r k name c s) :
    s.Anchored := by
  have hregistry : s.registry = r.registry := by rw [registry, hj.manager, ← registry]
  refine ⟨hung, ?_, ?_, ?_, ?_, ?_⟩
  · intro j e he
    rw [hj.nextSource]
    rcases hj.channel he with ⟨rfl, _⟩ | ⟨_, hold⟩
    · exact h.numbered j c hj.before
    · exact h.numbered j e hold
  · intro j e he
    rcases hj.channel he with ⟨_, rfl⟩ | ⟨_, hold⟩
    · exact issues_seating (h.issued k c hj.before)
    · exact h.issued j e hold
  · intro j hheld
    rw [hj.channels]
    split
    · rfl
    · rename_i hne
      refine h.alive j (hheld.imp ?_ ?_)
      · rintro ⟨i, l, hl, rfl⟩
        rw [hj.listeners] at hl
        split at hl
        · cases hl
          exact absurd rfl hne
        · exact ⟨i, l, hl, rfl⟩
      · rw [Retained, hregistry]
        exact id
  · rw [hregistry]
    exact h.agreed
  · rw [hj.agenda]
    exact fun t ht j hk => hj.heard hname (h.asked t ht j hk)

theorem join? {k : SourceId} {name : String} {l : Listener} (h : r.Anchored)
    (hname : r.listeners.get? name = none) (hj : r.join? k name = some (l, s)) : s.Anchored := by
  obtain ⟨c, hjoined⟩ := joined_of_join? hj
  exact h.joined hname ((Aside.join? (P := fun _ => False) hj).appends h.hung).hung hjoined

theorem joining (h : r.Anchored) (k : SourceId) {name : String}
    (hname : r.listeners.get? name = none) : (r.joining k name).Anchored := by
  unfold Relay.joining
  cases hj : r.join? k name with
  | none => exact h
  | some p => exact h.join? (l := p.1) hname hj

theorem listened (h : r.Anchored) {name : String} {l : Listener} {c : Channel}
    (hc : r.channels.get? l.source = some c) (rd : Reader) {f : Feed}
    (hseats : c.feed.source.SeatsAlike f.source) :
    Anchored { r.updateChannel l.source (fun c => { c with feed := f }) with
      listeners := r.listeners.modify name fun l => { l with reader := rd } } := by
  have hget := get?_updateChannel hc fun c => { c with feed := f }
  have hung : (r.updateChannel l.source fun c => { c with feed := f }).Hung := by
    refine (Appends.updateChannel (P := fun _ => False) h.hung l.source ?_).hung
    exact fun _ ht => ht
  have hheard : ∀ k, Heard { r.updateChannel l.source (fun c => { c with feed := f }) with
      listeners := r.listeners.modify name fun l => { l with reader := rd } } k ↔ r.Heard k := by
    intro k
    simp only [Heard, Roster.get?_modify]
    constructor
    · rintro ⟨i, m, hm, rfl⟩
      split at hm
      · obtain ⟨j, hj, rfl⟩ := Option.map_eq_some_iff.mp hm
        exact ⟨i, j, hj, rfl⟩
      · exact ⟨i, m, hm, rfl⟩
    · rintro ⟨i, m, hm, rfl⟩
      by_cases hi : i = name
      · exact ⟨i, { m with reader := rd }, by rw [if_pos hi, hm, Option.map_some], rfl⟩
      · exact ⟨i, m, by rw [if_neg hi, hm], rfl⟩
  refine ⟨⟨hung.sources, hung.timers⟩, ?_, ?_, ?_, h.agreed, ?_⟩
  · intro j d hd
    rcases channel_cases hget hd with ⟨rfl, _⟩ | ⟨_, hold⟩
    · exact h.numbered _ c hc
    · exact h.numbered j d hold
  · intro j d hd
    rcases channel_cases hget hd with ⟨_, rfl⟩ | ⟨_, hold⟩
    · exact issues_of_outline (h.issued _ c hc) (outline_of_seatsAlike hseats)
    · exact h.issued j d hold
  · exact fun j hj => (isSome_channel_iff hget hc j).mpr (h.alive j (hj.imp_left (hheard j).mp))
  · exact fun t ht k hk => (hheard k).mpr (h.asked t ht k hk)

theorem call (h : r.Anchored) (name : String) (call : Call) :
    (r.make (.call name call)).Anchored := by
  simp only [make, listen?]
  cases hl : r.listeners.get? name with
  | none => exact h
  | some l =>
    dsimp only
    cases hc : r.channels.get? l.source with
    | none => exact h
    | some c =>
      dsimp only
      cases hact : call.act? l.reader c.feed.source with
      | none => exact h
      | some p =>
        obtain ⟨_, hseats⟩ := Reader.seats_act? hact
        exact h.listened hc p.1 hseats

theorem leave (h : r.Anchored) {name : String} {l : Listener}
    (hl : r.listeners.get? name = some l) (hmay : r.mayLeave name l = true) :
    (r.leave name).Anchored := by
  let without : Relay := { r with listeners := r.listeners.erase name }
  have hothers : ∀ k, without.Heard k → r.Heard k := by
    rintro k ⟨i, m, hm, rfl⟩
    simp only [without, Roster.get?_erase, Option.ite_none_left_eq_some] at hm
    exact ⟨i, m, hm.2, rfl⟩
  have hwithout : without.Anchored := by
    refine ⟨⟨h.hung.sources, h.hung.timers⟩, h.numbered, h.issued, ?_, h.agreed, ?_⟩
    · exact fun k hk => h.alive k (hk.imp_left (hothers k))
    · intro t ht k hk
      by_cases hkl : k = l.source
      · have hother := List.all_eq_true.mp hmay t ht
        simp only [hk, hkl, ne_eq, not_true_eq_false, decide_false, Bool.false_or,
          List.any_eq_true, Roster.mem_values_iff, decide_eq_true_eq] at hother
        obtain ⟨m, ⟨i, hm⟩, hsource⟩ := hother
        exact ⟨i, m, hm, hsource.trans hkl.symm⟩
      · obtain ⟨i, m, hm, rfl⟩ := h.asked t ht k hk
        refine ⟨i, m, ?_, rfl⟩
        simp only [without, Roster.get?_erase]
        rw [if_neg, hm]
        rintro rfl
        exact hkl (by rw [Option.some.inj (hm.symm.trans hl)])
  have hdetached : (without.updateSource l.source (·.detach l.reader.cursor)).Anchored := by
    refine hwithout.updateChannel l.source ?_ fun _ ht => ht
    intro c hc id hid
    change ((c.feed.source.detach l.reader.cursor).cursors.get? id).isSome at hid
    change id < (c.feed.source.detach l.reader.cursor).nextCursor
    rw [(c.feed.source.touches_detach l.reader.cursor).nextCursor]
    exact hc id ((hasCursor_detach _ _ _).mp hid).2
  have hform : r.leave name =
      Relay.reap { without.updateSource l.source (·.detach l.reader.cursor) with
        agenda := r.agenda.postAll ((((without.updateSource l.source
          (·.detach l.reader.cursor)).channels.get? l.source).map Channel.onDetach).getD []) }
        l.source := by
    simp only [Relay.leave, hl]
    rfl
  rw [hform]
  refine (hdetached.postAll ?_).reap l.source
  intro t ht
  cases hc : (without.updateSource l.source (·.detach l.reader.cursor)).channels.get? l.source with
  | none => simp [hc] at ht
  | some c =>
    simp only [hc, Option.map_some, Option.getD_some] at ht
    exact hdetached.hung.sources l.source c hc t (List.mem_append_left _ ht)

theorem disown (h : r.Anchored) (k : SourceId) : (r.disown k).Anchored :=
  (h.updateChannel k (f := fun c => { c with owned := false }) (fun _ hc => hc)
    fun _ ht => ht).reap k

theorem ask (h : r.Anchored) {t : ManagerId → Task}
    (ht : ∀ i k, adds? (t i) = some k → r.Heard k) : (r.ask t).Anchored := by
  unfold Relay.ask
  split
  · exact h
  · exact h.post (ht _)

theorem command (h : r.Anchored) {t : ManagerId → Task} (ht : ∀ i, adds? (t i) = none) :
    (r.ask t).Anchored := by
  refine h.ask fun i k hk => ?_
  rw [ht] at hk
  cases hk

/-! ## From one deed to all -/

theorem make (h : r.Anchored) {v : Move} (hserved : r.served? (.move v) = none) :
    (r.make v).Anchored := by
  cases v with
  | openReader name z i =>
    simp only [Relay.make]
    split
    · exact h
    · rename_i hcontains
      exact (h.openSource z i false).joining _ (get?_of_contains hcontains)
  | attach other name =>
    simp only [Relay.make]
    split
    · rename_i hcontains _
      exact h.joining _ (get?_of_contains (by simp [hcontains]))
    · exact h
  | tryAttach request name =>
    simp only [Relay.make]
    split
    · rename_i l s hcontains hok
      unfold Relay.tryAttach at hok
      split at hok
      · cases hok
      · split at hok
        · cases hok
        · rename_i hj
          cases hok
          exact h.join? (get?_of_contains (by simp [hcontains])) hj
    · exact h
  | call name call => exact h.call name call
  | leave name =>
    simp only [Relay.make]
    split
    · exact h
    · rename_i l hl
      split
      · rename_i hmay
        exact h.leave hl hmay
      · exact h
  | produce k =>
    refine h.updateFeed k (f := fun g => g.step?.getD g) fun g => ?_
    cases hs : g.step? with
    | none => exact Source.SeatsAlike.refl g.source
    | some next => exact Feed.seats_step? hs
  | feed k items =>
    exact h.updateFeed k (f := fun g => { g with input := g.input.feed items })
      fun g => Source.SeatsAlike.refl g.source
  | onClose k tag =>
    refine h.updateChannel k (fun _ hc => hc) fun c hc t ht => ?_
    rw [← List.append_assoc, List.mem_append, List.mem_singleton] at ht
    rcases ht with ht | rfl
    · exact hc t ht
    · rfl
  | onDetach k tag =>
    refine h.updateChannel k (fun _ hc => hc) fun c hc t ht => ?_
    simp only [List.mem_append, List.mem_singleton] at ht hc
    rcases ht with (ht | rfl) | ht
    · exact hc t (Or.inl ht)
    · rfl
    · exact hc t (Or.inr ht)
  | add name request =>
    simp only [Relay.make]
    split
    · exact h
    · rename_i l hl
      refine h.ask (t := fun m => .add m request l.source) ?_
      rintro i k ⟨⟩
      exact ⟨name, l, hl, rfl⟩
  | remove id => exact h.command (t := fun m => .remove m id) fun _ => rfl
  | close => exact h.command (t := .close) fun _ => rfl
  | subscribe s => exact h.command (t := fun m => .subscribe m s) fun _ => rfl
  | unsubscribe id => exact h.command (t := fun m => .unsubscribe m id) fun _ => rfl
  | subscriptions all => exact h.less rfl rfl rfl rfl (fun _ _ hn => hn) fun _ _ hk => hk
  | run =>
    have hnext : r.agenda.next? = none := hserved
    simp only [Relay.make, runNext?, hnext, Option.getD_none]
    exact h
  | fire n =>
    have hnone : r.agenda.timers[n]? = none := by simpa [served?] using hserved
    simp only [Relay.make, fire?, hnone, Option.getD_none]
    exact h

theorem enact (h : r.Anchored) {d : Deed} (hd : ∀ request k, d ≠ .list request k) :
    (r.enact d).Anchored := by
  cases hserved : r.served? d with
  | some served => exact h.served (t := served.1) (a := served.2) hserved
  | none =>
    cases d with
    | move v => exact h.make hserved
    | own z i => exact h.openSource z i true
    | disown k => exact h.disown k
    | join k name =>
      simp only [Relay.enact]
      split
      · exact h
      · rename_i hcontains
        exact h.joining k (get?_of_contains hcontains)
    | list request k => exact absurd rfl (hd request k)
    | stop =>
      refine ⟨h.hung.enact .stop, h.numbered, h.issued, h.alive, h.agreed, ?_⟩
      intro t ht
      cases ht
    | strike id =>
      simp only [Relay.enact]
      split
      · exact h.updateRegistry (fun _ _ _ hn => hn) fun _ _ _ hk => hk
      · exact h

theorem start (c : Settings) (catalog : Catalog) : (runDeeds c catalog []).Anchored where
  hung := hung_start c catalog
  numbered := fun _ _ h => nomatch h
  issued := fun _ _ h => nomatch h
  alive := by
    rintro k (⟨_, _, hl, _⟩ | ⟨_, hk⟩)
    · cases hl
    · cases hk
  agreed := fun _ _ _ h => nomatch h
  asked := fun _ h => nomatch h

theorem foldl (h : r.Anchored) {deeds : List Deed} (hd : ∀ request k, .list request k ∉ deeds) :
    (deeds.foldl Relay.enact r).Anchored := by
  refine List.foldlRecOn (motive := Anchored) deeds Relay.enact h fun r hr d hmem => ?_
  refine hr.enact ?_
  rintro request k rfl
  exact hd request k hmem

end Anchored

end Relay
end MediaRelay
