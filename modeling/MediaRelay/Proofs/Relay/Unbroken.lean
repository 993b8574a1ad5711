import MediaRelay.Proofs.Relay.Calm
import MediaRelay.Proofs.Relay.Lifetimes

/-! # Errands without a break

Where nobody comes between, a thread that works off its errands one after another does what a relay
does in one move, unless it comes to wait for a producer that sits in a read.
-/
namespace MediaRelay

namespace Site

/-- A thread works off errands, and nobody else has any. -/
inductive Does : Site → List Errand → Site → List Errand → Prop where
  | refl (x : Site) (es : List Errand) : Does x es x es
  | step {x y z : Site} {e : Errand} {rest more fs : List Errand} :
      x.do? rest e = some (y, more) → Does y (more ++ rest) z fs → Does x (e :: rest) z fs

theorem Does.trans {x y z : Site} {es fs gs : List Errand} (h : Does x es y fs)
    (h' : Does y fs z gs) : Does x es z gs := by
  induction h with
  | refl => exact h'
  | step hdo _ ih => exact .step hdo (ih h')

end Site

namespace Relay

/-- By these errands, done without a break, one relay becomes the other. -/
structure WorksOff (r : Relay) (es : List Errand) (s : Relay) (rest : List Errand) : Prop where
  fewer : Fewer r s
  does : r.Prompt s → ∀ x : Site, x.relay = r → x.fading = .empty →
    ∃ y, x.Does es y rest ∧ y.relay = s ∧ y.fading = .empty

variable {r s t : Relay} {e : Errand} {es fs gs rest more : List Errand} {k : SourceId}

namespace WorksOff

theorem refl (r : Relay) (es : List Errand) : WorksOff r es r es :=
  ⟨.of_eq rfl, fun _ x hr hfading => ⟨x, .refl x es, hr, hfading⟩⟩

theorem trans (h : WorksOff r es s fs) (h' : WorksOff s fs t gs) : WorksOff r es t gs := by
  refine ⟨h.fewer.trans h'.fewer, fun hprompt x hr hfading => ?_⟩
  obtain ⟨y, hy, hrelay, hgone⟩ := h.does (hprompt.left h'.fewer) x hr hfading
  obtain ⟨z, hz, hlast, hnone⟩ := h'.does (hprompt.right h.fewer) y hrelay hgone
  exact ⟨z, hy.trans hz, hlast, hnone⟩

theorem step (hfewer : Fewer r s) (hdo : ∀ x : Site, x.relay = r → x.fading = .empty →
    ∃ log, x.do? rest e = some (⟨s, x.fading, log⟩, more)) :
    WorksOff r (e :: rest) s (more ++ rest) := by
  refine ⟨hfewer, fun _ x hr hfading => ?_⟩
  obtain ⟨log, he⟩ := hdo x hr hfading
  exact ⟨_, .step he (.refl _ _), rfl, hfading⟩

theorem single (hfewer : Fewer r s) (hdo : ∀ x : Site, x.relay = r → x.fading = .empty →
    ∃ log, x.do? rest e = some (⟨s, x.fading, log⟩, [])) : WorksOff r (e :: rest) s rest :=
  step hfewer hdo

theorem post (cause : Cause) (t : Task) (r : Relay) (rest : List Errand) :
    WorksOff r (.post cause t :: rest) (r.post t) rest := by
  refine single (.of_eq rfl) fun x hr _ => ⟨x.log ++ cause.record t, ?_⟩
  rw [← hr]
  rfl

theorem posts (cause : Cause) (ts : List Task) (r : Relay) (rest : List Errand) :
    WorksOff r (ts.map (.post cause) ++ rest) { r with agenda := r.agenda.postAll ts } rest := by
  induction ts generalizing r with
  | nil => exact refl r rest
  | cons t ts ih => exact (post cause t r _).trans (ih (r.post t))

theorem notify (r : Relay) (k : SourceId) (rest : List Errand) :
    WorksOff r (.notify k :: rest)
      { r with agenda := r.agenda.postAll (((r.channels.get? k).map Channel.onDetach).getD []) }
      rest := by
  refine trans (step (s := r) (.of_eq rfl) fun x hr _ => ⟨x.log, ?_⟩) (posts (.left k) _ r rest)
  rw [← hr]
  rfl

theorem ends {c : Channel} (hc : r.channels.get? k = some c)
    (hfree : ∀ x : Site, x.relay = r → x.isHeld rest k = false) :
    WorksOff r (.letGo k :: rest)
      { r with channels := r.channels.erase k, agenda := r.agenda.postAll c.onClose } rest := by
  have hfewer := fewer_erase r k
  refine ⟨hfewer, fun hprompt x hr hfading => ?_⟩
  have hstill : c.feed.source.reserved = none := by
    refine Option.not_isSome_iff_eq_none.mp fun hread => ?_
    have hleft := hprompt k c hc hread
    rw [Roster.get?_erase, if_pos rfl] at hleft
    cases hleft
  let stop := fun c : Channel => { c with feed := c.feed.halt }
  let buried : Site :=
    { relay := { r with channels := r.channels.erase k }, log := x.log ++ [.ended k c.onClose] }
  let faded : Site := { buried with fading := Roster.empty.put k c }
  let halted : Site := { buried with fading := Roster.empty.put k (stop c) }
  have hgo : x.do? rest (.letGo k) = some (faded, [.halt k, .await k, .bury k]) := by
    simp only [Site.do?, hfree x hr, Site.endSource, hr, hc, hfading]
    rfl
  have hhalt : faded.do? ([.await k, .bury k] ++ rest) (.halt k) = some (halted, []) := by
    have hput : (Roster.empty.put k c).modify k stop = Roster.empty.put k (stop c) := by
      apply Roster.eq_of_entries
      simp [Roster.modify, Roster.put, Roster.erase, Roster.empty]
    change some (Site.mk _ ((Roster.empty.put k c).modify k stop) _, _) = _
    rw [hput]
  have hget : halted.fading.get? k = some (stop c) := by
    rw [Roster.get?_put, if_pos rfl]
  have hawait : halted.do? (.bury k :: rest) (.await k) = some (halted, []) := by
    simp [Site.do?, hget, stop, Feed.halt, hstill]
  have hbury : halted.do? rest (.bury k) = some (buried, c.onClose.map (.post (.gone k))) := by
    have herase : halted.fading.erase k = .empty := by
      apply Roster.eq_of_entries
      simp [halted, Roster.put, Roster.erase, Roster.empty]
    simp only [Site.do?, Site.closing, hget, herase]
    rfl
  obtain ⟨y, hy, hrelay, hgone⟩ :=
    (posts (.gone k) c.onClose buried.relay rest).does (hprompt.right hfewer) buried rfl rfl
  exact ⟨y, .step hgo (.step hhalt (.step hawait (.step hbury hy))), hrelay, hgone⟩

/-- Others who are about to give up a handle on a source are heard there. -/
theorem isHeld_of_heard (h : r.Calm) (hrest : ∀ j, .letGo j ∈ rest → r.Heard j) (x : Site)
    (hr : x.relay = r) (k : SourceId) : x.isHeld rest k = r.isHeld k := by
  rw [Bool.eq_iff_iff, Site.isHeld_iff, hr]
  constructor
  · rintro (hheld | ⟨t, ht, hk⟩ | hgo)
    · exact hheld
    · exact (r.isHeld_iff k).mpr (Or.inr (Or.inl (h.asked t ht k hk)))
    · exact (r.isHeld_iff k).mpr (Or.inr (Or.inl (hrest k hgo)))
  · exact Or.inl

theorem lets (held : Bool) (hheld : ∀ x : Site, x.relay = r → x.isHeld rest k = held) :
    WorksOff r (.letGo k :: rest) (if held then r else r.cut k) rest := by
  cases held with
  | true =>
    refine single (.of_eq rfl) fun x hr _ => ⟨x.log, ?_⟩
    simp only [Site.do?, hheld x hr, if_true]
    rw [← hr]
  | false =>
    simp only [cut]
    cases hc : r.channels.get? k with
    | none =>
      refine single (.of_eq rfl) fun x hr _ => ⟨x.log, ?_⟩
      simp only [Site.do?, hheld x hr, Site.endSource, hr, hc]
      rw [← hr]
      rfl
    | some c => exact ends hc hheld

theorem letGo (h : r.Calm) (hrest : ∀ j, .letGo j ∈ rest → r.Heard j) (k : SourceId) :
    WorksOff r (.letGo k :: rest) (r.reap k) rest := by
  rw [reap_eq]
  exact lets _ fun x hr => isHeld_of_heard h hrest x hr k

theorem gives (h : r.Calm) (hrest : ∀ j, .letGo j ∈ rest → r.Heard j) (id : ConnectionId) :
    WorksOff (r.updateRegistry (·.forget id))
      ((r.registry.retained.get? id).toList.map .letGo ++ rest) (r.forget id) rest := by
  unfold forget
  cases hk : r.registry.retained.get? id with
  | none =>
    have hsame : r.updateRegistry (·.forget id) = r := by
      apply updateRegistry_eq_self
      rw [Registry.forget, Roster.erase_of_fresh hk]
    rw [hsame]
    exact refl r rest
  | some k =>
    have hforgets : Stays r (r.updateRegistry (·.forget id)) := stays_of_eq rfl rfl rfl
    exact letGo (hforgets h).1 hrest k

/-! ## Subscribers are told -/

theorem tells {depth : Nat} {remove : ConnectionId → Relay → Relay}
    (hkeep : ∀ id r, Within depth r (remove id r)) (n : Nat)
    (hremove : ∀ r, r.Calm → r.registry.count ≤ depth → ∀ (m : Manager) id rest,
      r.manager = some m → (∀ j, .letGo j ∈ rest → r.Heard j) →
        WorksOff r (.serve (.remove m.id id) :: rest) (remove id r) rest)
    (hnobody : ∀ r id, r.manager = none → remove id r = r) (all : List Subscriber) (r : Relay)
    (h : r.Calm) (hcount : r.registry.count ≤ depth)
    (hrest : ∀ j, .letGo j ∈ rest → r.Heard j) :
    WorksOff r (all.map (.tell n) ++ rest) (all.foldl (Relay.tell remove n) r) rest := by
  -- Each subscriber is told by a relay that is calm again, with no more connections than before.
  induction all generalizing r with
  | nil => exact refl r rest
  | cons s all ih =>
    have hwithin := telling_within depth
    let told := s.cancels.foldl cancelOnThread (r.enter (.count s.tag n r.registry.count))
    have htold : Within depth r told :=
      hwithin.trans (hwithin.tells r s.tag n) (hwithin.foldl hwithin.cancel s.cancels _)
    obtain ⟨⟨hcalm, hless⟩, hlisteners⟩ := htold ⟨h, hcount⟩
    have hfewer : Fewer r told := .of_eq (channels_cancels s.cancels _)
    have hall : ∀ j, .letGo j ∈ all.map (Errand.tell n) ++ rest → r.Heard j := by
      intro j hj
      rcases List.mem_append.mp hj with hj | hj
      · obtain ⟨_, _, he⟩ := List.mem_map.mp hj
        cases he
      · exact hrest j hj
    have hasked : ∀ j, .letGo j ∈ all.map (Errand.tell n) ++ rest → told.Heard j :=
      fun j hj => (hall j hj).same hlisteners
    have hdone : WorksOff r (.tell n s :: (all.map (.tell n) ++ rest)) (r.tell remove n s)
        (all.map (.tell n) ++ rest) := by
      cases hid : s.removes with
      | none =>
        have htell : r.tell remove n s = told := by
          unfold Relay.tell
          rw [hid]
        rw [htell]
        refine single hfewer fun x hr _ => ⟨x.log, ?_⟩
        simp only [Site.do?, telling, hr, hid]
        rfl
      | some id =>
        have htell : r.tell remove n s = remove id told := by
          unfold Relay.tell
          rw [hid]
        rw [htell]
        cases hm : told.manager with
        | none =>
          rw [hnobody told id hm]
          refine single hfewer fun x hr _ => ⟨x.log, ?_⟩
          simp only [Site.do?, telling, hr, hid, Option.bind_some]
          change some (Site.mk told _ _, (told.manager.map _).toList) = _
          rw [hm]
          rfl
        | some m =>
          have hasks : WorksOff r (.tell n s :: (all.map (.tell n) ++ rest)) told
              ([.serve (.remove m.id id)] ++ (all.map (.tell n) ++ rest)) := by
            refine step hfewer fun x hr _ => ⟨x.log, ?_⟩
            simp only [Site.do?, telling, hr, hid, Option.bind_some]
            change some (Site.mk told _ _, (told.manager.map _).toList) = _
            rw [hm]
            rfl
          exact hasks.trans (hremove told hcalm hless m id _ hm hasked)
    have hafter : Within depth r (r.tell remove n s) := by
      unfold Relay.tell
      dsimp only
      cases s.removes with
      | none => exact htold
      | some id => exact hwithin.trans htold (hkeep id told)
    obtain ⟨⟨hcalm', hless'⟩, hlisteners'⟩ := hafter ⟨h, hcount⟩
    exact hdone.trans (ih _ hcalm' hless' fun j hj => (hrest j hj).same hlisteners')

theorem tellsAll {depth : Nat} {remove : ConnectionId → Relay → Relay}
    (hkeep : ∀ id r, Within depth r (remove id r)) (n : Nat)
    (hremove : ∀ r, r.Calm → r.registry.count ≤ depth → ∀ (m : Manager) id rest,
      r.manager = some m → (∀ j, .letGo j ∈ rest → r.Heard j) →
        WorksOff r (.serve (.remove m.id id) :: rest) (remove id r) rest)
    (hnobody : ∀ r id, r.manager = none → remove id r = r) (r : Relay)
    (h : r.Calm) (hcount : r.registry.count ≤ depth)
    (hrest : ∀ j, .letGo j ∈ rest → r.Heard j) :
    WorksOff r (.tellAll n :: rest) (tellAll remove n r) rest := by
  refine trans (step (s := r) (.of_eq rfl) fun x hr _ => ⟨x.log, ?_⟩)
    (tells hkeep n hremove hnobody r.registry.subscribers.values r h hcount hrest)
  rw [← hr]
  rfl

/-- A removal comes to its end within the given depth. -/
theorem removal (depth : Nat) (r : Relay) (h : r.Calm) (hcount : r.registry.count ≤ depth)
    {m : Manager} (hm : r.manager = some m) {t : Task} {id : ConnectionId}
    (ht : r.serve t = r.strikeOff m.id id) (hrest : ∀ j, .letGo j ∈ rest → r.Heard j) :
    WorksOff r (.serve t :: rest) (removeWithin depth id r) rest := by
  have hmanaged : r.isManagedBy m.id = true := by simp [isManagedBy, hm]
  have hserve : ∀ x : Site, x.relay = r →
      x.do? rest (.serve t) =
        some ({ x with relay := (r.strikeOff m.id id).1 }, (r.strikeOff m.id id).2) := by
    intro x hr
    rw [← ht, ← hr]
    rfl
  -- Each removal takes a connection off the table before it tells anybody.
  induction depth generalizing r m t id rest with
  | zero =>
    cases hlisted : r.registry.connections.contains id with
    | false =>
      refine single (.of_eq rfl) fun x hr _ => ⟨x.log, ?_⟩
      rw [hserve x hr, strikeOff, hmanaged, hlisted]
      rfl
    | true =>
      have hless := Delivery.count_delisted hlisted
      omega
  | succ depth ih =>
    cases hlisted : r.registry.connections.contains id with
    | false =>
      rw [Delivery.removeWithin_of_unlisted hlisted]
      refine single (.of_eq rfl) fun x hr _ => ⟨x.log, ?_⟩
      rw [hserve x hr, strikeOff, hmanaged, hlisted]
      rfl
    | true =>
      let delisted := r.updateRegistry (·.delist id)
      let base := (delisted.forget id).post .announce
      let n := delisted.registry.count
      have hless : base.registry.count + 1 = r.registry.count := Delivery.count_delisted hlisted
      have hbase : base.Calm ∧ base.listeners = r.listeners := kept_stays.delist r id hlisted h
      have hdelisted : Stays r delisted := stays_of_eq rfl rfl rfl
      have hstruck : r.strikeOff m.id id = (delisted.updateRegistry (·.forget id),
          (delisted.registry.retained.get? id).toList.map .letGo ++
            [.post .other .announce, .tellAll n]) := by
        have hregistry := registry_updateRegistry hm (·.delist id)
        have htwice := registry_updateRegistry hm fun g => (g.delist id).forget id
        simp only [strikeOff, hmanaged, hlisted, Bool.and_self, if_true, htwice, n, delisted,
          hregistry]
        simp only [updateRegistry, hm, Option.map_some]
        rfl
      have hothers : ∀ j, .letGo j ∈ [.post .other .announce, .tellAll n] ++ rest →
          delisted.Heard j := by
        intro j hj
        exact hrest j (by simpa using hj)
      have htold : WorksOff base (.tellAll n :: rest) (tellAll (removeWithin depth) n base)
          rest := by
        refine tellsAll (fun id r => (telling_within depth).removeWithin depth id r) n ?_ ?_ base
          hbase.1 (by omega) ?_
        · intro r hr hless m id rest hm hrest
          exact ih r hr hless hm rfl hrest (by simp [isManagedBy, hm])
            fun x hx => by rw [← hx]; rfl
        · exact fun r id hm => Delivery.removeWithin_of_unlisted (unlisted_of_none hm id) depth
        · exact fun j hj => (hrest j hj).same hbase.2
      have hgives := gives (hdelisted h).1 hothers id
      have hstep : WorksOff r (.serve t :: rest) (delisted.updateRegistry (·.forget id))
          (((delisted.registry.retained.get? id).toList.map .letGo ++
            [.post .other .announce, .tellAll n]) ++ rest) := by
        refine step (.of_eq rfl) fun x hr _ => ⟨x.log, ?_⟩
        rw [hserve x hr, hstruck]
      unfold removeWithin
      rw [if_pos hlisted]
      rw [List.append_assoc] at hstep
      exact ((hstep.trans hgives).trans (post .other .announce _ _)).trans htold

/-- A round in which all removals that are asked for come to their end. -/
theorem round (n : Nat) (r : Relay) (h : r.Calm) (hrest : ∀ j, .letGo j ∈ rest → r.Heard j) :
    WorksOff r (.tellAll n :: rest) (tellAll remove n r) rest := by
  have hwithin := telling_within r.registry.count
  refine tellsAll (fun id r => hwithin.remove id r) n ?_ ?_ r h (Nat.le_refl _) hrest
  · intro s hs _ m id rest hm hrest
    exact removal _ s hs (Nat.le_refl _) hm rfl hrest
  · exact fun s id hm => Delivery.removeWithin_of_unlisted (unlisted_of_none hm id) _

/-! ## Tasks -/

theorem forgetsAll (entries : List (ConnectionId × SourceId)) (r : Relay) (h : r.Calm)
    (hentries : r.registry.retained.entries = entries)
    (hrest : ∀ j, .letGo j ∈ rest → r.Heard j) :
    WorksOff r.released (entries.map (fun e => .letGo e.2) ++ rest)
      ((entries.map Prod.fst).foldl forget r) rest := by
  -- The thread forgets all of them and gives up the handles then, the function one after another:
  -- what it still retains, the thread has a handle on.
  induction entries generalizing r with
  | nil =>
    have hnone : r.registry.retained = .empty := Roster.eq_of_entries hentries
    have hsame : r.released = r := by
      apply updateRegistry_eq_self
      rw [← hnone]
    rw [hsame]
    exact refl r rest
  | cons e entries ih =>
    obtain ⟨id, k⟩ := e
    obtain ⟨m, hm⟩ : ∃ m, r.manager = some m := by
      cases hm : r.manager with
      | some m => exact ⟨m, rfl⟩
      | none =>
        rw [registry_of_none hm] at hentries
        cases hentries
    have hk : r.registry.retained.get? id = some k :=
      (r.registry.retained.get?_eq_some_iff id k).mpr (hentries ▸ List.mem_cons_self)
    let base := r.updateRegistry (·.forget id)
    have hregistry : base.registry = r.registry.forget id := registry_updateRegistry hm _
    have hleft : base.registry.retained.entries = entries := by
      have hdistinct := r.registry.retained.distinct
      rw [hentries, List.map_cons, List.nodup_cons] at hdistinct
      rw [hregistry]
      simp only [Registry.forget, Roster.erase, hentries]
      rw [List.filter_cons_of_neg (by simp), List.filter_eq_self]
      intro d hd
      exact decide_eq_true fun he => hdistinct.1 (List.mem_map.mpr ⟨d, hd, he⟩)
    have hget : ∀ i j, base.registry.retained.get? i = some j ↔ (i, j) ∈ entries := by
      intro i j
      rw [Roster.get?_eq_some_iff, hleft]
    have hbase : Calm base ∧ base.listeners = r.listeners :=
      have hforgets : Stays r base := stays_of_eq rfl rfl rfl
      hforgets h
    have hforget : r.forget id = base.reap k := by
      unfold forget
      rw [hk]
    have hreleased : base.released = r.released := by
      simp [released, base, updateRegistry, Function.comp_def, Registry.forget]
    have hafter : Calm (base.reap k) ∧ (base.reap k).listeners = base.listeners :=
      stays_reap base k hbase.1
    have hnext := ih (base.reap k) hafter.1 (by rw [registry_reap]; exact hleft) fun j hj =>
      (hrest j hj).same (hafter.2.trans hbase.2)
    have hheld : ∀ x : Site, x.relay = r.released →
        x.isHeld (entries.map (fun e => .letGo e.2) ++ rest) k = base.isHeld k := by
      intro x hx
      rw [Bool.eq_iff_iff, Site.isHeld_iff, hx, isHeld_iff, isHeld_iff]
      constructor
      · rintro ((howned | hheard | hretained) | ⟨t, ht, hk⟩ | hgo)
        · exact Or.inl howned
        · exact Or.inr (Or.inl hheard)
        · obtain ⟨i, hi⟩ := hretained
          rw [released, registry_updateRegistry hm] at hi
          cases hi
        · exact Or.inr (Or.inl (h.asked t ht k hk))
        · rcases List.mem_append.mp hgo with hgo | hgo
          · obtain ⟨⟨i, j⟩, he, hj⟩ := List.mem_map.mp hgo
            rw [Errand.letGo.injEq] at hj
            exact Or.inr (Or.inr ⟨i, (hget i k).mpr (hj ▸ he)⟩)
          · exact Or.inr (Or.inl (hrest k hgo))
      · rintro (howned | hheard | ⟨i, hi⟩)
        · exact Or.inl (Or.inl howned)
        · exact Or.inl (Or.inr (Or.inl hheard))
        · have hgo : .letGo k ∈ entries.map fun e => Errand.letGo e.2 :=
            List.mem_map.mpr ⟨(i, k), (hget i k).mp hi, rfl⟩
          exact Or.inr (Or.inr (List.mem_append_left rest hgo))
    have hcut : (base.reap k).released =
        if base.isHeld k then r.released else r.released.cut k := by
      rw [reap_eq, ← hreleased, ← released_cut]
      split <;> rfl
    simp only [List.map_cons, List.foldl_cons, List.cons_append, hforget]
    rw [hcut] at hnext
    exact trans (lets _ hheld) hnext

theorem clears (h : r.Calm) {m : Manager} (hm : r.manager = some m)
    (hrest : ∀ j, .letGo j ∈ rest → r.Heard j) :
    WorksOff r (.serve (.close m.id) :: rest) r.clear rest := by
  let bare := r.updateRegistry (·.delistAll)
  let left := bare.registry.retained.ids.foldl forget bare
  have hregistry : bare.registry = r.registry.delistAll := registry_updateRegistry hm _
  have hbare := kept_stays.delistAll r h
  have hleft := kept_stays.foldl kept_stays.forget bare.registry.retained.ids bare hbare.1
  have hserve : WorksOff r (.serve (.close m.id) :: rest) bare.released
      (r.registry.retained.values.map .letGo ++ [.tellAll 0] ++ rest) := by
    refine step (.of_eq rfl) fun x hr _ => ⟨x.log, ?_⟩
    have hmanaged : r.isManagedBy m.id = true := by simp [isManagedBy, hm]
    have htwice : bare.released =
        r.updateRegistry fun g => { g.delistAll with retained := .empty } := by
      simp [bare, released, updateRegistry, hm]
    simp only [Site.do?, hr, serve, if_pos hmanaged, htwice]
  have hvalues : r.registry.retained.values.map Errand.letGo =
      bare.registry.retained.entries.map fun e => .letGo e.2 := by
    rw [hregistry]
    simp [Registry.delistAll, Roster.values]
  rw [hvalues, List.append_assoc] at hserve
  have hforgets : WorksOff bare.released
      (bare.registry.retained.entries.map (fun e => .letGo e.2) ++ ([.tellAll 0] ++ rest)) left
      ([.tellAll 0] ++ rest) :=
    forgetsAll _ bare hbare.1 rfl fun j hj => (hrest j (by simpa using hj)).same hbare.2
  exact (hserve.trans hforgets).trans (round 0 left hleft.1 fun j hj =>
    (hrest j hj).same (hleft.2.trans hbare.2))

theorem lists (h : r.Calm) {m : Manager} (hm : r.manager = some m) (request : Request)
    (k : SourceId) (hrest : ∀ j, .letGo j ∈ rest → r.Heard j) :
    WorksOff r (.serve (.add m.id request k) :: rest) (r.add m request k) rest := by
  let added := r.updateRegistry (·.add request k)
  let id := added.registry.lastId
  let closed := added.onClose k (.sourceClosed m.id id)
  let hung := closed.onDetach k (.cursorLeft m.id id)
  let listed := listing m request k r
  let n := added.registry.count
  let agenda := hung.agenda.timer m.settings.dedupWindow (.windowElapsed m.id id)
  have hlisted : { hung with agenda := agenda } = listed := by
    have htwice := r.channels.modify_modify k
      (fun c => { c with onClose := c.onClose ++ [.sourceClosed m.id id] })
      fun c => { c with onDetach := c.onDetach ++ [.cursorLeft m.id id] }
    exact congrArg (fun channels => { added with channels := channels, agenda := agenda }) htwice
  have hserve : WorksOff r (.serve (.add m.id request k) :: rest) added
      ([.onClose k (.sourceClosed m.id id), .onDetach k (.cursorLeft m.id id),
        .timer m.settings.dedupWindow (.windowElapsed m.id id), .post .other .announce,
        .tellAll n] ++ rest) := by
    refine step (.of_eq rfl) fun x hr _ => ⟨x.log, ?_⟩
    simp only [Site.do?, hr, serve, hm, if_true]
    rfl
  have hclose : ∀ rest,
      WorksOff added (.onClose k (.sourceClosed m.id id) :: rest) closed rest := by
    intro rest
    refine single (fewer_updateChannel _ k fun _ => rfl) fun x hr _ => ⟨x.log, ?_⟩
    rw [Site.do?, hr]
  have hdetach : ∀ rest, WorksOff closed (.onDetach k (.cursorLeft m.id id) :: rest) hung rest := by
    intro rest
    refine single (fewer_updateChannel _ k fun _ => rfl) fun x hr _ => ⟨x.log, ?_⟩
    rw [Site.do?, hr]
  have htimer : ∀ rest, WorksOff hung
      (.timer m.settings.dedupWindow (.windowElapsed m.id id) :: rest) listed rest := by
    intro rest
    rw [← hlisted]
    refine single (.of_eq rfl) fun x hr _ => ⟨x.log, ?_⟩
    rw [Site.do?, hr]
  have hstays : Stays r (listed.post .announce) :=
    (stays_listing m request k r).trans (stays_post _ rfl)
  obtain ⟨hcalm, hlisteners⟩ := hstays h
  have htold := round n (listed.post .announce) hcalm fun j hj => (hrest j hj).same hlisteners
  exact (((((hserve.trans (hclose _)).trans (hdetach _)).trans (htimer _)).trans
    (post .other .announce _ _)).trans htold)

theorem performs (r : Relay) (h : r.Calm) (t : Task) (hrest : ∀ j, .letGo j ∈ rest → r.Heard j) :
    WorksOff r (.serve t :: rest) (r.perform t) rest := by
  have halone : ∀ u, r.serve u = (r.perform u, []) → (r.perform u).channels = r.channels →
      WorksOff r (.serve u :: rest) (r.perform u) rest := by
    intro u hserve hsame
    refine single (.of_eq hsame) fun x hr _ => ⟨x.log, ?_⟩
    simp only [Site.do?, hr, hserve]
  have hremoves : ∀ (m : ManagerId) id (u : Task), r.serve u = r.strikeOff m id →
      r.perform u = (if r.isManagedBy m then r.remove id else r) →
      WorksOff r (.serve u :: rest) (r.perform u) rest := by
    intro m id u hserve hperform
    cases hmanaged : r.isManagedBy m with
    | false =>
      rw [hmanaged] at hperform
      refine halone u ?_ (by rw [hperform]; rfl)
      rw [hserve, hperform, strikeOff, hmanaged]
      rfl
    | true =>
      rw [hmanaged] at hperform
      obtain ⟨manager, hm, rfl⟩ := exists_manager_of_managed hmanaged
      rw [hperform]
      exact removal _ r h (Nat.le_refl _) hm hserve hrest
  have hgives : ∀ (m : ManagerId) id (u : Task), r.serve u = r.giveUp m id →
      r.perform u = (if r.isManagedBy m then r.forget id else r) →
      WorksOff r (.serve u :: rest) (r.perform u) rest := by
    intro m id u hserve hperform
    cases hmanaged : r.isManagedBy m with
    | false =>
      rw [hmanaged] at hperform
      refine halone u ?_ (by rw [hperform]; rfl)
      rw [hserve, hperform, giveUp, hmanaged]
      rfl
    | true =>
      rw [hmanaged, if_pos rfl] at hperform
      rw [hperform]
      have hforgets : WorksOff r (.serve u :: rest) (r.updateRegistry (·.forget id))
          ((r.registry.retained.get? id).toList.map .letGo ++ rest) := by
        refine step (.of_eq rfl) fun x hr _ => ⟨x.log, ?_⟩
        simp only [Site.do?, hr, hserve, giveUp, if_pos hmanaged]
      exact hforgets.trans (gives h hrest id)
  have hupdate : ∀ (m : ManagerId) (f : Registry → Registry),
      (if r.isManagedBy m then r.updateRegistry f else r).channels = r.channels := by
    intro m f
    split <;> rfl
  cases t with
  | add m request k =>
    cases hm : r.manager with
    | none =>
      refine halone _ ?_ ?_ <;> simp [serve, perform, hm]
    | some manager =>
      by_cases hid : manager.id = m
      · subst hid
        have hperform : r.perform (.add manager.id request k) = r.add manager request k := by
          simp [perform, hm]
        rw [hperform]
        exact lists h hm request k hrest
      · refine halone _ ?_ ?_ <;> simp [serve, perform, hm, hid]
  | remove m id => exact hremoves m id _ rfl rfl
  | sourceClosed m id => exact hremoves m id _ rfl rfl
  | cursorLeft m id => exact hgives m id _ rfl rfl
  | windowElapsed m id => exact hgives m id _ rfl rfl
  | close m =>
    cases hmanaged : r.isManagedBy m with
    | false => refine halone _ ?_ ?_ <;> simp [serve, perform, hmanaged]
    | true =>
      obtain ⟨manager, hm, rfl⟩ := exists_manager_of_managed hmanaged
      have hperform : r.perform (.close manager.id) = r.clear := by
        simp only [perform, hmanaged, if_true]
      rw [hperform]
      exact clears h hm hrest
  | subscribe m s => exact halone _ rfl (hupdate m _)
  | unsubscribe m id => exact halone _ rfl (hupdate m _)
  | announce => exact halone _ rfl rfl
  | enter e => exact halone _ rfl rfl

theorem begun (h : r.Calm) {t : Task} (ht : ∀ k, adds? t = some k → r.Heard k) :
    WorksOff r (Crew.begin t) (r.perform t) [] := by
  obtain ⟨hcalm, hlisteners⟩ := stays_perform r t h
  unfold Crew.begin
  cases hk : adds? t with
  | none => exact performs r h t fun j hj => absurd hj List.not_mem_nil
  | some k =>
    have hserve : WorksOff r [.serve t, .letGo k, .answer k] (r.perform t)
        [.letGo k, .answer k] := performs r h t fun j hj => by
      have hjk : j = k := by simpa using hj
      exact hjk ▸ ht k hk
    have hheld : (r.perform t).isHeld k = true :=
      (isHeld_iff _ k).mpr (Or.inr (Or.inl ((ht k hk).same hlisteners)))
    have hgo : WorksOff (r.perform t) [.letGo k, .answer k] ((r.perform t).reap k)
        [.answer k] := letGo hcalm (by simp) k
    rw [reap_eq, if_pos hheld] at hgo
    have hanswer : WorksOff (r.perform t) [.answer k] (r.perform t) [] :=
      single (.of_eq rfl) fun x hr _ => ⟨x.log, by rw [← hr]; rfl⟩
    exact (hserve.trans hgo).trans hanswer

/-! ## Listeners that come and go -/

theorem leaves (h : r.Calm) {name : String} {l : Listener} (hl : r.listeners.get? name = some l)
    (hmay : r.mayLeave name l = true) :
    WorksOff (r.detached name l) [.notify l.source, .letGo l.source] (r.leave name) [] := by
  have hcalm := calm_detached h hl hmay
  let ts := (((r.detached name l).channels.get? l.source).map Channel.onDetach).getD []
  have hts : ∀ t ∈ ts, adds? t = none := by
    intro t ht
    simp only [ts] at ht
    cases hc : (r.detached name l).channels.get? l.source with
    | none => simp [hc] at ht
    | some c =>
      simp only [hc, Option.map_some, Option.getD_some] at ht
      exact hcalm.harmless _ c hc t (List.mem_append_left _ ht)
  have hposted := (stays_postAll hts hcalm).1
  have hleave : r.leave name =
      Relay.reap { r.detached name l with
        agenda := (r.detached name l).agenda.postAll ts } l.source := by
    simp only [leave, hl]
    rfl
  rw [hleave]
  exact (notify _ l.source _).trans (letGo hposted (by simp) l.source)

/-- A call that has a handle on a source and joins it, where somebody has one afterwards. -/
theorem joins (h : r.Calm) {name : String} (hname : ¬r.listeners.contains name)
    (hheld : (r.joining k name).isHeld k = true) :
    WorksOff r [.join k name, .letGo k] (r.joining k name) [] := by
  obtain ⟨hcalm, hfewer⟩ := calm_joining h (get?_of_contains hname) k
  have hgo : WorksOff (r.joining k name) [.letGo k] ((r.joining k name).reap k) [] :=
    letGo hcalm (by simp) k
  rw [reap_eq, if_pos hheld] at hgo
  refine trans (single hfewer fun x hr _ => ⟨x.log, ?_⟩) hgo
  rw [Site.do?, hr, if_neg hname]

end WorksOff
end Relay

end MediaRelay
