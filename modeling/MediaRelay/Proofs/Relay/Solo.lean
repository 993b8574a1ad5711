import MediaRelay.Proofs.Relay.Attaching
import MediaRelay.Proofs.Relay.Counts

/-! # A source to oneself

Who has just opened a source has it to itself: there is no other listener, nobody holds the source
besides, and no table tells of it. Nothing that others do changes this until the source is listed,
so long as they do not act in the listener's name.
-/
namespace MediaRelay

/-- Somebody acts in the name of a listener, or reaches a source that only this listener has. Also,
to list a source without being its listener. -/
def Deed.meddles (name : String) (own : Option SourceId) : Deed → Bool
  | .move (.openReader other _ _) => other = name
  | .move (.attach host other) => host = name || other = name
  | .move (.tryAttach _ other) => other = name
  | .move (.call other _) => other = name
  | .move (.leave other) => other = name
  | .move (.add other _) => other = name
  | .join k other => other = name || own = some k
  | .list _ _ => true
  | _ => false

theorem Feed.cursors_step? {f g : Feed} (h : f.step? = some g) :
    g.source.cursors = f.source.cursors := by
  unfold Feed.step? at h
  split at h
  · split at h
    · cases h
    · rename_i span s hs
      cases h
      unfold Source.reserve? at hs
      split at hs
      · cases hs
        rfl
      · cases hs
  · split at h
    · cases h
    · cases h
      rfl
    · cases h
      simp

namespace Relay
variable {r s : Relay} {name : String} {own : Option Listener} {ts : List Task} {l : Listener}

/-- The tasks in the queue by which a source is to be listed. -/
def asking (r : Relay) (k : SourceId) : List Task := r.agenda.queue.filter fun t => adds? t = some k

/-- The source that a deed has the thread list. -/
def listing? (r : Relay) (d : Deed) : Option SourceId := (r.served? d).bind fun p => adds? p.1

/-- A listener has its source to itself, has not read from it, and has asked for its listing with
these tasks. -/
structure Solo (r : Relay) (name : String) (l : Listener) (ts : List Task) : Prop where
  alone : ∀ other m, r.listeners.get? other = some m → m.source = l.source → other = name
  unretained : ∀ id, r.registry.retained.get? id ≠ some l.source
  unread : ∃ c, r.channels.get? l.source = some c ∧ c.owned = false ∧
    c.feed.source.cursors.get? l.reader.cursor = some {}
  asked : r.asking l.source = ts

/-- Who has this name is the given listener, if there is one, and has its source to itself. -/
structure Hosts (r : Relay) (name : String) (own : Option Listener) (ts : List Task) : Prop where
  anchored : r.Anchored
  listener : r.listeners.get? name = own
  solo : ∀ l, own = some l → r.Solo name l ts

theorem asking_of_appends {P : Task → Prop} (ha : Appends P r s) {k : SourceId}
    (hP : ∀ t, P t → adds? t ≠ some k) : s.asking k = r.asking k := by
  obtain ⟨ts, hqueue, hts⟩ := ha.queue
  have hnone : ts.filter (fun t => adds? t = some k) = [] := by
    refine List.filter_eq_nil_iff.mpr fun t ht => ?_
    rcases hts t ht with hhangs | hnew
    · simp [adds?_of_hangs hhangs]
    · simpa using hP t hnew
  rw [asking, hqueue, List.filter_append, hnone, List.append_nil, asking]

theorem listeners_reap (r : Relay) (k : SourceId) : (r.reap k).listeners = r.listeners := by
  rcases r.reap_cases k with ⟨he, _⟩ | ⟨_, _, _, he⟩ <;> rw [he]

theorem listeners_leave (r : Relay) (name : String) :
    (r.leave name).listeners = r.listeners.erase name := by
  unfold leave
  split
  · rename_i hnone
    exact (Roster.erase_of_fresh hnone).symm
  · rw [listeners_reap]
    rfl

theorem channels_reap_of_ne (r : Relay) {k j : SourceId} (hj : j ≠ k) :
    (r.reap k).channels.get? j = r.channels.get? j := by
  rcases r.reap_cases k with ⟨he, _⟩ | ⟨_, _, _, he⟩ <;> rw [he]
  rw [Roster.get?_erase, if_neg hj]

theorem channels_leave_of_ne {l : Listener} (hl : r.listeners.get? name = some l) {j : SourceId}
    (hj : j ≠ l.source) : (r.leave name).channels.get? j = r.channels.get? j := by
  simp only [leave, hl]
  rw [channels_reap_of_ne _ hj]
  exact (r.channels.get?_modify l.source j _).trans (if_neg hj)

namespace Hosts

/-- What may change, if the listener and its source are left alone. -/
theorem frame (h : r.Hosts name own ts) (hs : s.Anchored)
    (hlistener : s.listeners.get? name = r.listeners.get? name)
    (hothers : ∀ l, own = some l → ∀ other m, s.listeners.get? other = some m →
      m.source = l.source → ∃ j, r.listeners.get? other = some j ∧ j.source = l.source)
    (hretained : ∀ id k, s.registry.retained.get? id = some k →
      r.registry.retained.get? id = some k)
    (hchannel : ∀ l, own = some l → ∀ c, r.channels.get? l.source = some c →
      ∃ d, s.channels.get? l.source = some d ∧ (c.owned = false → d.owned = false) ∧
        d.feed.source.cursors = c.feed.source.cursors)
    (hqueue : ∀ l, own = some l → s.asking l.source = r.asking l.source) :
    s.Hosts name own ts where
  anchored := hs
  listener := hlistener.trans h.listener
  solo := by
    intro l hl
    have hsolo := h.solo l hl
    refine ⟨?_, ?_, ?_, (hqueue l hl).trans hsolo.asked⟩
    · intro other m hm hsource
      obtain ⟨j, hj, hjs⟩ := hothers l hl other m hm hsource
      exact hsolo.alone other j hj hjs
    · exact fun id hid => hsolo.unretained id (hretained id l.source hid)
    · obtain ⟨c, hc, howned, hcursor⟩ := hsolo.unread
      obtain ⟨d, hd, hfree, hcursors⟩ := hchannel l hl c hc
      exact ⟨d, hd, hfree howned, by rw [hcursors, hcursor]⟩

/-- What changes is the table, what is retained, or the queue, and nothing new is listed. -/
theorem tables (h : r.Hosts name own ts) (hs : s.Anchored) (hlisteners : s.listeners = r.listeners)
    (hchannels : s.channels = r.channels)
    (hretained : ∀ id k, s.registry.retained.get? id = some k →
      r.registry.retained.get? id = some k)
    (hqueue : ∀ l, own = some l → s.asking l.source = r.asking l.source) :
    s.Hosts name own ts := by
  refine h.frame hs (by rw [hlisteners]) ?_ hretained ?_ hqueue
  · intro l _ other m hm hsource
    exact ⟨m, hlisteners ▸ hm, hsource⟩
  · intro l _ c hc
    exact ⟨c, hchannels ▸ hc, id, rfl⟩

theorem isHeld (h : r.Hosts name own ts) {l : Listener} (hl : own = some l) :
    r.isHeld l.source = true :=
  (r.isHeld_iff l.source).mpr (Or.inr (Or.inl ⟨name, l, h.listener.trans hl, rfl⟩))

theorem reap (h : r.Hosts name own ts) (k : SourceId) : (r.reap k).Hosts name own ts := by
  have hanchored := h.anchored.reap k
  have happends : Appends (fun _ => False) r (r.reap k) := .reap h.anchored.hung k
  rcases r.reap_cases k with ⟨he, _⟩ | ⟨c, _, hfree, he⟩
  · rw [he]
    exact h
  · rw [he] at hanchored happends ⊢
    refine h.frame hanchored rfl (fun l _ other m hm hsource => ⟨m, hm, hsource⟩)
      (fun _ _ hk => hk) ?_
      fun l _ => asking_of_appends happends fun _ hfalse => hfalse.elim
    intro l hl d hd
    have hne : l.source ≠ k := by
      rintro rfl
      rw [h.isHeld hl] at hfree
      cases hfree
    exact ⟨d, by simpa only [Roster.get?_erase, if_neg hne] using hd, id, rfl⟩

theorem updateRegistry (h : r.Hosts name own ts) {f : Registry → Registry}
    (hconnections : ∀ g id n, (f g).connections.get? id = some n → g.connections.get? id = some n)
    (hretained : ∀ g id k, (f g).retained.get? id = some k → g.retained.get? id = some k) :
    (r.updateRegistry f).Hosts name own ts := by
  have hanchored := h.anchored.updateRegistry hconnections hretained
  rcases r.registry_updateRegistry_cases f with he | he
  · exact h.tables hanchored rfl rfl (by simp [he]) fun _ _ => rfl
  · refine h.tables hanchored rfl rfl ?_ fun _ _ => rfl
    rw [he]
    exact hretained r.registry

theorem forget (h : r.Hosts name own ts) (id : ConnectionId) : (r.forget id).Hosts name own ts := by
  unfold Relay.forget
  split
  · exact h
  · have hforgotten : (r.updateRegistry (·.forget id)).Hosts name own ts := by
      refine h.updateRegistry (fun _ _ _ hn => hn) fun g i k hk => ?_
      simp only [Registry.forget, Roster.get?_erase, Option.ite_none_left_eq_some] at hk
      exact hk.2
    exact hforgotten.reap _

theorem post (h : r.Hosts name own ts) {t : Task} (ht : ∀ k, adds? t = some k → r.Heard k)
    (hother : ∀ l, own = some l → adds? t ≠ some l.source) : (r.post t).Hosts name own ts := by
  have happends : Appends (· = t) r (r.post t) := .post h.anchored.hung (Or.inr rfl)
  refine h.tables (h.anchored.post ht) rfl rfl (fun _ _ hk => hk) ?_
  intro l hl
  refine asking_of_appends happends ?_
  rintro _ rfl
  exact hother l hl

/-! ## The thread -/

theorem kept (name : String) (own : Option Listener) (ts : List Task) :
    Kept fun r s => r.Hosts name own ts → s.Hosts name own ts where
  refl := fun _ h => h
  trans := fun h h' hr => h' (h hr)
  enter := fun r e hr =>
    hr.tables (Anchored.kept.enter r e hr.anchored) rfl rfl (fun _ _ hk => hk)
      fun _ _ => rfl
  renounce := fun r all hr =>
    hr.tables (Anchored.kept.renounce r all hr.anchored) rfl rfl (fun _ _ hk => hk) fun _ _ => rfl
  subscribe := fun _ _ hr => hr.updateRegistry (fun _ _ _ hn => hn) fun _ _ _ hk => hk
  unsubscribe := fun _ _ hr => hr.updateRegistry (fun _ _ _ hn => hn) fun _ _ _ hk => hk
  forget := fun _ id hr => hr.forget id
  delistAll := by
    refine fun _ hr => hr.updateRegistry ?_ fun _ _ _ hk => hk
    intro g id n hn
    cases hn
  delist := by
    intro r id _ hr
    have hdelisted : (r.updateRegistry (·.delist id)).Hosts name own ts :=
      hr.updateRegistry (fun _ _ _ hn => (get?_delist hn).2) fun _ _ _ hk => hk
    refine (hdelisted.forget id).post ?_ ?_
    · rintro k ⟨⟩
    · rintro l _ ⟨⟩

theorem listing (h : r.Hosts name own ts) {m : Manager} (hm : r.manager = some m)
    (request : Request) {k : SourceId} (hk : r.Heard k)
    (hother : ∀ l, own = some l → k ≠ l.source) :
    (listing m request k r).Hosts name own ts := by
  obtain ⟨c, hc⟩ := Option.isSome_iff_exists.mp (h.anchored.alive k (Or.inl hk))
  have hlisted := listed_listing hm request hc
  refine ⟨h.anchored.listing hm request hk, ?_, ?_⟩
  · rw [hlisted.listeners]
    exact h.listener
  · intro l hl
    have hsolo := h.solo l hl
    refine ⟨?_, ?_, ?_, ?_⟩
    · rw [hlisted.listeners]
      exact hsolo.alone
    · intro id hid
      rw [hlisted.retained] at hid
      split at hid
      · exact hother l hl (Option.some.inj hid)
      · exact hsolo.unretained id hid
    · obtain ⟨d, hd, howned, hcursor⟩ := hsolo.unread
      refine ⟨d, ?_, howned, hcursor⟩
      rw [hlisted.channels, if_neg (hother l hl).symm, hd]
    · rw [asking, hlisted.queue, ← asking, hsolo.asked]

theorem perform (h : r.Hosts name own ts) {t : Task} (ht : ∀ k, adds? t = some k → r.Heard k)
    (hother : ∀ l, own = some l → adds? t ≠ some l.source) :
    (r.perform t).Hosts name own ts := by
  refine (kept name own ts).perform_of_listing r t ?_ h
  rintro m request k rfl hm hr
  have hne : ∀ l, own = some l → k ≠ l.source := fun l hl hk => hother l hl (by rw [hk]; rfl)
  refine (hr.listing hm request (ht k rfl) hne).post ?_ ?_
  · rintro k ⟨⟩
  · rintro l _ ⟨⟩

theorem taken (h : r.Hosts name own ts) {t : Task} {a : Agenda Task} (ht : r.Taken t a)
    (hother : ∀ l, own = some l → adds? t ≠ some l.source) :
    Hosts { r with agenda := a } name own ts := by
  refine h.tables (h.anchored.taken ht) rfl rfl (fun _ _ hk => hk) ?_
  intro l hl
  cases ht with
  | queued hq => simp [asking, hq, hother l hl]
  | due _ _ hq _ _ => simp [asking, hq]

theorem served (h : r.Hosts name own ts) {d : Deed} {t : Task} {a : Agenda Task}
    (hserved : r.served? d = some (t, a))
    (hother : ∀ l, own = some l → adds? t ≠ some l.source) :
    (r.enact d).Hosts name own ts := by
  have htaken := taken_of_served hserved
  rw [enact_of_served hserved]
  exact (h.taken htaken hother).perform (fun k hk => h.anchored.heard_of_taken htaken hk) hother

/-! ## Sources and listeners -/

theorem updateChannel (h : r.Hosts name own ts) (k : SourceId) {f : Channel → Channel}
    (hf : (r.updateChannel k f).Anchored) (howned : ∀ c, c.owned = false → (f c).owned = false)
    (hcursors : ∀ c, (f c).feed.source.cursors = c.feed.source.cursors) :
    (r.updateChannel k f).Hosts name own ts := by
  refine h.frame hf rfl (fun l _ other m hm hsource => ⟨m, hm, hsource⟩) (fun _ _ hk => hk) ?_
    fun _ _ => rfl
  intro l _ c hc
  simp only [Relay.updateChannel, Roster.get?_modify, hc]
  split
  · exact ⟨f c, rfl, howned c, hcursors c⟩
  · exact ⟨c, rfl, id, rfl⟩

theorem openSource (h : r.Hosts name own ts) (z : Sizing) (i : Input) (owned : Bool) :
    (r.openSource z i owned).2.Hosts name own ts := by
  refine h.frame (h.anchored.openSource z i owned) rfl
    (fun l _ other m hm hsource => ⟨m, hm, hsource⟩) (fun _ _ hk => hk) ?_ fun _ _ => rfl
  intro l _ c hc
  have hne : l.source ≠ r.nextSource := Nat.ne_of_lt (h.anchored.numbered l.source c hc)
  exact ⟨c, by simpa only [Relay.openSource, Roster.get?_put, if_neg hne] using hc, id, rfl⟩

theorem joined {k : SourceId} {other : String} {c : Channel} (h : r.Hosts name own ts)
    (hs : s.Anchored) (hj : Joined r k other c s) (hname : other ≠ name)
    (hother : ∀ l, own = some l → k ≠ l.source) : s.Hosts name own ts := by
  have hregistry : s.registry = r.registry := by rw [registry, hj.manager, ← registry]
  refine h.frame hs ?_ ?_ (by simp [hregistry]) ?_ ?_
  · rw [hj.listeners, if_neg hname.symm]
  · intro l hl n m hm hsource
    rw [hj.listeners] at hm
    split at hm
    · cases hm
      exact absurd hsource (hother l hl)
    · exact ⟨m, hm, hsource⟩
  · intro l hl d hd
    exact ⟨d, by rw [hj.channels, if_neg (hother l hl).symm, hd], id, rfl⟩
  · intro l _
    rw [asking, hj.agenda, ← asking]

theorem join? {k : SourceId} {other : String} {l : Listener} (h : r.Hosts name own ts)
    (hfree : r.listeners.get? other = none) (hj : r.join? k other = some (l, s))
    (hname : other ≠ name) (hother : ∀ l, own = some l → k ≠ l.source) : s.Hosts name own ts := by
  obtain ⟨c, hjoined⟩ := joined_of_join? hj
  exact h.joined (h.anchored.join? hfree hj) hjoined hname hother

theorem joining (h : r.Hosts name own ts) (k : SourceId) {other : String}
    (hfree : r.listeners.get? other = none) (hname : other ≠ name)
    (hother : ∀ l, own = some l → k ≠ l.source) : (r.joining k other).Hosts name own ts := by
  unfold Relay.joining
  cases hj : r.join? k other with
  | none => exact h
  | some p => exact h.join? (l := p.1) hfree hj hname hother

theorem source_ne (h : r.Hosts name own ts) {other : String} {m : Listener}
    (hm : r.listeners.get? other = some m) (hname : other ≠ name) :
    ∀ l, own = some l → m.source ≠ l.source :=
  fun l hl hsource => hname ((h.solo l hl).alone other m hm hsource)

theorem call (h : r.Hosts name own ts) {other : String} (hname : other ≠ name) (call : Call) :
    (r.make (.call other call)).Hosts name own ts := by
  have hanchored := h.anchored.call other call
  simp only [make, listen?] at hanchored ⊢
  cases hm : r.listeners.get? other with
  | none => exact h
  | some m =>
    simp only [hm] at hanchored
    dsimp only
    cases hc : r.channels.get? m.source with
    | none => exact h
    | some c =>
      simp only [hc] at hanchored
      dsimp only
      cases hact : call.act? m.reader c.feed.source with
      | none => exact h
      | some p =>
        simp only [hact] at hanchored
        refine h.frame hanchored ?_ ?_ (fun _ _ hk => hk) ?_ fun _ _ => rfl
        · exact (r.listeners.get?_modify other name _).trans (if_neg hname.symm)
        · intro l _ i j hj hsource
          change (r.listeners.modify other _).get? i = some j at hj
          rw [Roster.get?_modify] at hj
          split at hj
          · obtain ⟨b, hb, rfl⟩ := Option.map_eq_some_iff.mp hj
            exact ⟨b, hb, hsource⟩
          · exact ⟨j, hj, hsource⟩
        · intro l hl d hd
          have hne := h.source_ne hm hname l hl
          refine ⟨d, ?_, id, rfl⟩
          change (r.channels.modify m.source _).get? l.source = some d
          rw [Roster.get?_modify, if_neg hne.symm, hd]

theorem leave (h : r.Hosts name own ts) {other : String} {m : Listener}
    (hm : r.listeners.get? other = some m) (hname : other ≠ name)
    (hanchored : (r.leave other).Anchored) : (r.leave other).Hosts name own ts := by
  have hne := h.source_ne hm hname
  have haside : Aside (fun _ => False) r (r.leave other) := .leave r other
  have hregistry : (r.leave other).registry = r.registry := by
    rw [registry, haside.manager, ← registry]
  refine h.frame hanchored ?_ ?_ (by simp [hregistry]) ?_ ?_
  · rw [listeners_leave, Roster.get?_erase, if_neg hname.symm]
  · intro l _ i j hj hsource
    rw [listeners_leave, Roster.get?_erase, Option.ite_none_left_eq_some] at hj
    exact ⟨j, hj.2, hsource⟩
  · intro l hl d hd
    exact ⟨d, by rw [channels_leave_of_ne hm (hne l hl).symm, hd], id, rfl⟩
  · exact fun l _ => asking_of_appends (haside.appends h.anchored.hung) fun _ hfalse => hfalse.elim

theorem disown (h : r.Hosts name own ts) (k : SourceId) : (r.disown k).Hosts name own ts := by
  have hfree : (r.updateChannel k fun c => { c with owned := false }).Anchored :=
    h.anchored.updateChannel k (fun _ hc => hc) fun _ ht => ht
  exact (h.updateChannel k hfree (fun _ _ => rfl) fun _ => rfl).reap k

theorem ask (h : r.Hosts name own ts) {t : ManagerId → Task}
    (ht : ∀ i k, adds? (t i) = some k → r.Heard k)
    (hother : ∀ i l, own = some l → adds? (t i) ≠ some l.source) :
    (r.ask t).Hosts name own ts := by
  unfold Relay.ask
  split
  · exact h
  · exact h.post (ht _) (hother _)

theorem command (h : r.Hosts name own ts) {t : ManagerId → Task} (ht : ∀ i, adds? (t i) = none) :
    (r.ask t).Hosts name own ts := by
  refine h.ask (fun i k hk => ?_) fun i l _ => ?_
  · rw [ht] at hk
    cases hk
  · rw [ht]
    exact Option.some_ne_none _ ∘ Eq.symm

/-! ## From one deed to all -/

theorem make (h : r.Hosts name own ts) {v : Move} (hserved : r.served? (.move v) = none)
    (hv : Deed.meddles name (own.map Listener.source) (.move v) = false) :
    (r.make v).Hosts name own ts := by
  have hanchored := h.anchored.make hserved
  cases v with
  | openReader other z i =>
    have hname : other ≠ name := of_decide_eq_false hv
    simp only [Relay.make]
    split
    · exact h
    · rename_i hcontains
      refine (h.openSource z i false).joining _ (get?_of_contains hcontains) hname ?_
      intro l hl
      obtain ⟨c, hc, _⟩ := (h.solo l hl).unread
      exact (Nat.ne_of_lt (h.anchored.numbered l.source c hc)).symm
  | attach host other =>
    simp only [Deed.meddles, Bool.or_eq_false_iff, decide_eq_false_iff_not] at hv
    simp only [Relay.make]
    split
    · rename_i m hcontains hm
      exact h.joining _ (get?_of_contains (by simp [hcontains])) hv.2 (h.source_ne hm hv.1)
    · exact h
  | tryAttach request other =>
    have hname : other ≠ name := of_decide_eq_false hv
    simp only [Relay.make]
    split
    · rename_i m s hcontains hok
      unfold Relay.tryAttach at hok
      split at hok
      · cases hok
      · split at hok
        · cases hok
        · rename_i hcandidate _ _ hj
          cases hok
          obtain ⟨⟨_, hretained⟩, _⟩ := Registry.foremost_of_candidate? hcandidate
          refine h.join? (get?_of_contains (by simp [hcontains])) hj hname fun l hl hk => ?_
          exact (h.solo l hl).unretained _ (hk ▸ hretained)
    · exact h
  | call other call => exact h.call (of_decide_eq_false hv) call
  | leave other =>
    have hname : other ≠ name := of_decide_eq_false hv
    simp only [Relay.make] at hanchored ⊢
    cases hm : r.listeners.get? other with
    | none => exact h
    | some m =>
      simp only [hm] at hanchored
      dsimp only
      split
      · rename_i hmay
        rw [if_pos hmay] at hanchored
        exact h.leave hm hname hanchored
      · exact h
  | produce k =>
    refine h.updateChannel k hanchored (fun _ ho => ho) fun c => ?_
    change (c.feed.step?.getD c.feed).source.cursors = c.feed.source.cursors
    cases hs : c.feed.step? with
    | none => rfl
    | some next => exact Feed.cursors_step? hs
  | feed k items => exact h.updateChannel k hanchored (fun _ ho => ho) fun _ => rfl
  | onClose k tag => exact h.updateChannel k hanchored (fun _ ho => ho) fun _ => rfl
  | onDetach k tag => exact h.updateChannel k hanchored (fun _ ho => ho) fun _ => rfl
  | add other request =>
    have hname : other ≠ name := of_decide_eq_false hv
    simp only [Relay.make]
    split
    · exact h
    · rename_i m hm
      refine h.ask (t := fun i => .add i request m.source) ?_ fun i l hl hk => ?_
      · rintro i k ⟨⟩
        exact ⟨other, m, hm, rfl⟩
      · exact h.source_ne hm hname l hl (Option.some.inj hk)
  | remove id => exact h.command (t := fun m => .remove m id) fun _ => rfl
  | close => exact h.command (t := .close) fun _ => rfl
  | subscribe s => exact h.command (t := fun m => .subscribe m s) fun _ => rfl
  | unsubscribe id => exact h.command (t := fun m => .unsubscribe m id) fun _ => rfl
  | subscriptions all =>
    exact h.tables hanchored rfl rfl (fun _ _ hk => hk) fun _ _ => rfl
  | run =>
    have hnext : r.agenda.next? = none := hserved
    simp only [Relay.make, runNext?, hnext, Option.getD_none]
    exact h
  | fire n =>
    have hnone : r.agenda.timers[n]? = none := by simpa [served?] using hserved
    simp only [Relay.make, fire?, hnone, Option.getD_none]
    exact h

/-- Nothing that others do reaches a source that is not listed. -/
theorem enact (h : r.Hosts name own ts) {d : Deed}
    (hd : d.meddles name (own.map Listener.source) = false) (hstop : d ≠ .stop)
    (hother : ∀ l, own = some l → r.listing? d ≠ some l.source) :
    (r.enact d).Hosts name own ts := by
  cases hserved : r.served? d with
  | some served =>
    refine h.served (t := served.1) (a := served.2) hserved fun l hl => ?_
    simpa only [listing?, hserved, Option.bind_some] using hother l hl
  | none =>
    cases d with
    | move v => exact h.make hserved hd
    | own z i => exact h.openSource z i true
    | disown k => exact h.disown k
    | join k other =>
      simp only [Deed.meddles, Bool.or_eq_false_iff, decide_eq_false_iff_not] at hd
      simp only [Relay.enact]
      split
      · exact h
      · rename_i hcontains
        refine h.joining k (get?_of_contains hcontains) hd.1 fun l hl hk => hd.2 ?_
        rw [hl, Option.map_some, hk]
    | list request k => cases hd
    | stop => exact absurd rfl hstop
    | strike id =>
      simp only [Relay.enact]
      split
      · exact h.updateRegistry (fun _ _ _ hn => hn) fun _ _ _ hk => hk
      · exact h

theorem stop (h : r.Hosts name own ts) : (r.enact .stop).Hosts name own [] where
  anchored := h.anchored.enact (by simp)
  listener := h.listener
  solo := by
    intro l hl
    have hsolo := h.solo l hl
    exact ⟨hsolo.alone, hsolo.unretained, hsolo.unread, rfl⟩

end Hosts

/-! ## A source is opened, and let go -/

/-- A new source with its first listener. -/
def founding (r : Relay) (z : Sizing) (i : Input) (name : String) : Relay :=
  { r with
    channels := (r.channels.put r.nextSource { feed := .start z i }).modify r.nextSource seating
    nextSource := r.nextSource + 1
    listeners := r.listeners.put name ⟨r.nextSource, { cursor := 1 }⟩ }

theorem join?_openSource (r : Relay) (z : Sizing) (i : Input) (name : String) :
    (r.openSource z i false).2.join? r.nextSource name =
      some (⟨r.nextSource, { cursor := 1 }⟩, r.founding z i name) :=
  join?_of_start (r := (r.openSource z i false).2) (c := { feed := .start z i })
    ((r.channels.get?_put _ _ _).trans (if_pos rfl)) rfl name

theorem Hosts.founding (h : r.Hosts name none []) (z : Sizing) (i : Input) :
    (r.founding z i name).Hosts name (some ⟨r.nextSource, { cursor := 1 }⟩) [] where
  anchored := (h.anchored.openSource z i false).join? h.listener (r.join?_openSource z i name)
  listener := (r.listeners.get?_put _ _ _).trans (if_pos rfl)
  solo := by
    rintro _ ⟨⟩
    have hidle : ¬(r.Heard r.nextSource ∨ r.Retained r.nextSource) := by
      intro hheld
      have halive := h.anchored.alive r.nextSource hheld
      rw [h.anchored.fresh] at halive
      cases halive
    refine ⟨?_, ?_, ⟨seating { feed := .start z i }, ?_, rfl, rfl⟩, ?_⟩
    · intro other m hm hsource
      refine Decidable.byContradiction fun hname => ?_
      rw [Relay.founding, Roster.get?_put, if_neg hname] at hm
      exact hidle (Or.inl ⟨other, m, hm, hsource⟩)
    · exact fun id hid => hidle (Or.inr ⟨id, hid⟩)
    · simp [Relay.founding, Roster.get?_modify, Roster.get?_put]
    · refine List.filter_eq_nil_iff.mpr fun t ht hadds => ?_
      exact hidle (Or.inl (h.anchored.asked t ht r.nextSource (of_decide_eq_true hadds)))

theorem reap_of_stopped {k : SourceId} {c : Channel} (hc : r.channels.get? k = some c)
    (hfree : r.isHeld k = false) (hstopped : r.agenda.stopped = true) :
    r.reap k = { r with channels := r.channels.erase k } := by
  simp only [reap, hc, hfree, Bool.false_eq_true, if_false, Agenda.postAll_of_stopped hstopped]

/-- Once the thread is stopped, whoever has a source to itself leaves nothing behind. -/
theorem Hosts.leave_eq (h : r.Hosts name (some l) ts) (hstopped : r.agenda.stopped = true) :
    r.leave name =
      { r with
        channels := r.channels.erase l.source
        listeners := r.listeners.erase name } := by
  have hsolo := h.solo l rfl
  obtain ⟨c, hc, howned, _⟩ := hsolo.unread
  let left : Relay :=
    { r.updateSource l.source (·.detach l.reader.cursor) with
      listeners := r.listeners.erase name }
  have hget := get?_updateChannel hc
    (fun c => { c with feed := { c.feed with source := c.feed.source.detach l.reader.cursor } })
    l.source
  rw [if_pos rfl] at hget
  have hfree : left.isHeld l.source = false := by
    refine Bool.eq_false_iff.mpr fun hheld => ?_
    rcases (left.isHeld_iff l.source).mp hheld with
      ⟨d, hd, hown⟩ | ⟨other, m, hm, hsource⟩ | ⟨id, hid⟩
    · cases hget.symm.trans hd
      rw [howned] at hown
      cases hown
    · simp only [left, Roster.get?_erase, Option.ite_none_left_eq_some] at hm
      exact hm.1 (hsolo.alone other m hm.2 hsource)
    · exact hsolo.unretained id hid
  have hleft : r.leave name = left.reap l.source := by
    simp only [Relay.leave, h.listener]
    rw [Agenda.postAll_of_stopped (a := (r.updateSource l.source _).agenda) hstopped]
    rfl
  have hgone : left.channels.erase l.source = r.channels.erase l.source :=
    r.channels.erase_modify l.source _
  rw [hleft, reap_of_stopped (r := left) hget hfree hstopped, hgone]
  rfl

theorem Hosts.left (h : r.Hosts name (some l) []) (hstopped : r.agenda.stopped = true) :
    Hosts { r with
      channels := r.channels.erase l.source
      listeners := r.listeners.erase name } name none [] := by
  have hmay : r.mayLeave name l = true := by
    refine List.all_eq_true.mpr fun t ht => ?_
    have hasks := List.filter_eq_nil_iff.mp (h.solo l rfl).asked t ht
    rw [Bool.or_eq_true]
    exact Or.inl (decide_eq_true fun hadds => hasks (decide_eq_true hadds))
  have hanchored := h.anchored.leave h.listener hmay
  rw [h.leave_eq hstopped] at hanchored
  refine ⟨hanchored, ?_, by rintro _ ⟨⟩⟩
  rw [Roster.get?_erase, if_pos rfl]

/-! ## A source is listed -/

theorem Hosts.asks (h : r.Hosts name (some l) []) (hrunning : r.agenda.stopped = false) {t : Task}
    (ht : adds? t = some l.source) : (r.post t).Hosts name (some l) [t] where
  anchored := by
    refine h.anchored.post fun k hk => ⟨name, l, h.listener, ?_⟩
    exact Option.some.inj (ht.symm.trans hk)
  listener := h.listener
  solo := by
    rintro _ ⟨⟩
    have hsolo := h.solo l rfl
    refine ⟨hsolo.alone, hsolo.unretained, hsolo.unread, ?_⟩
    rw [asking, Relay.post, Agenda.post_of_running hrunning, List.filter_append, ← asking,
      hsolo.asked]
    simp [ht]

theorem asking_of_taken (h : r.Hung) {t : Task} {a : Agenda Task} (ht : r.Taken t a)
    {k : SourceId} (hk : adds? t = some k) :
    r.asking k = t :: asking { r with agenda := a } k := by
  cases ht with
  | queued hq => simp [asking, hq, hk]
  | due hu hsame _ _ _ =>
    rw [adds?_of_hangs (hsame ▸ h.timers _ hu)] at hk
    cases hk

theorem Hosts.comes {t : Task} {a : Agenda Task} (h : r.Hosts name (some l) (t :: ts))
    (ht : r.Taken t a) (hk : adds? t = some l.source) :
    Hosts { r with agenda := a } name (some l) ts where
  anchored := h.anchored.taken ht
  listener := h.listener
  solo := by
    rintro _ ⟨⟩
    have hsolo := h.solo l rfl
    have hasked := asking_of_taken h.anchored.hung ht hk
    rw [hsolo.asked] at hasked
    exact ⟨hsolo.alone, hsolo.unretained, hsolo.unread, (List.cons.inj hasked).2.symm⟩

/-- A source is not listed before anybody has asked for it. -/
theorem Hosts.listing?_ne (h : r.Hosts name (some l) []) (d : Deed) :
    r.listing? d ≠ some l.source := by
  intro hlisting
  obtain ⟨⟨t, a⟩, hserved, hadds⟩ := Option.bind_eq_some_iff.mp hlisting
  have hasking := asking_of_taken h.anchored.hung (taken_of_served hserved) hadds
  rw [(h.solo l rfl).asked] at hasking
  cases hasking

/-- When all are quiet, they are told of a new listing, and nothing else comes of it. -/
theorem perform_add_of_quiet (hr : ∀ s ∈ r.registry.subscribers.values, s.Quiet) {m : Manager}
    (hm : r.manager = some m) (request : Request) (k : SourceId) :
    ∃ told, r.perform (.add m.id request k) =
      { (listing m request k r).post .announce with journal := told } := by
  have hquiet : ∀ s ∈ ((listing m request k r).post .announce).registry.subscribers.values,
      s.Quiet := by
    have hregistry : ((listing m request k r).post .announce).registry =
        r.registry.add request k := registry_listing hm request k
    rw [hregistry]
    exact hr
  have hperform : r.perform (.add m.id request k) =
      tellAll remove (listing m request k r).registry.count
        ((listing m request k r).post .announce) := by
    simp only [perform, hm, if_true, add_eq]
  exact ⟨_, hperform.trans (tellAll_of_quiet hquiet remove _)⟩

end Relay
end MediaRelay
