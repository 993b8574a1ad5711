import MediaRelay.Proofs.Relay.Listing
import MediaRelay.Proofs.Relay.Changes
import MediaRelay.Proofs.Relay.Rounds

/-! # What goes on by itself

The thread brings nobody to listen and nobody to leave, and asks itself for no listings; and but for
a source that nobody has a handle on, it leaves alone what the producers are doing.
-/
namespace MediaRelay

namespace Relay

/-- Whoever has asked for a listing listens, and no source asks for one. -/
structure Calm (r : Relay) : Prop where
  running : r.agenda.stopped = false
  harmless : ∀ k c, r.channels.get? k = some c → ∀ t ∈ c.onDetach ++ c.onClose, adds? t = none
  asked : ∀ t ∈ r.agenda.queue, ∀ k, adds? t = some k → r.Heard k

theorem Heard.same {r s : Relay} {k : SourceId} (hk : r.Heard k) (h : s.listeners = r.listeners) :
    s.Heard k := by
  unfold Heard
  rwa [h]

def Stays (r s : Relay) : Prop := r.Calm → s.Calm ∧ s.listeners = r.listeners

theorem stays_of_eq {r s : Relay} (hchannels : s.channels = r.channels)
    (hlisteners : s.listeners = r.listeners) (hagenda : s.agenda = r.agenda) : Stays r s := by
  intro h
  refine ⟨⟨hagenda ▸ h.running, hchannels ▸ h.harmless, ?_⟩, hlisteners⟩
  rw [hagenda]
  exact fun t ht k hk => (h.asked t ht k hk).same hlisteners

theorem Stays.trans {r s t : Relay} (h : Stays r s) (h' : Stays s t) : Stays r t := by
  intro hr
  obtain ⟨hs, hlisteners⟩ := h hr
  obtain ⟨ht, hlast⟩ := h' hs
  exact ⟨ht, hlast.trans hlisteners⟩

theorem stays_postAll {r : Relay} {ts : List Task} (hts : ∀ t ∈ ts, adds? t = none) :
    Stays r { r with agenda := r.agenda.postAll ts } := by
  intro h
  refine ⟨⟨?_, h.harmless, ?_⟩, rfl⟩ <;>
    rw [Agenda.postAll_of_running h.running]
  · exact h.running
  · intro t ht k hk
    rcases List.mem_append.mp ht with hold | hnew
    · exact h.asked t hold k hk
    · rw [hts t hnew] at hk
      cases hk

theorem stays_erase (r : Relay) (k : SourceId) :
    Stays r { r with channels := r.channels.erase k } := by
  intro h
  refine ⟨⟨h.running, fun j c hc => ?_, h.asked⟩, rfl⟩
  rw [Roster.get?_erase, Option.ite_none_left_eq_some] at hc
  exact h.harmless j c hc.2

theorem stays_reap (r : Relay) (k : SourceId) : Stays r (r.reap k) := by
  rcases r.reap_cases k with ⟨he, _⟩ | ⟨c, hc, _, he⟩ <;> rw [he]
  · exact stays_of_eq rfl rfl rfl
  · intro h
    have hposts := stays_postAll (r := { r with channels := r.channels.erase k })
      fun t ht => h.harmless k c hc t (List.mem_append_right _ ht)
    exact (stays_erase r k).trans hposts h

theorem stays_forget (r : Relay) (id : ConnectionId) : Stays r (r.forget id) := by
  unfold forget
  split
  · exact stays_of_eq rfl rfl rfl
  · have hforgets : Stays r (r.updateRegistry (·.forget id)) := stays_of_eq rfl rfl rfl
    exact hforgets.trans (stays_reap _ _)

theorem stays_post (r : Relay) {t : Task} (ht : adds? t = none) : Stays r (r.post t) := by
  have hts : ∀ u ∈ [t], adds? u = none := by simpa using ht
  exact stays_postAll hts

theorem kept_stays : Kept Stays where
  refl := fun _ => stays_of_eq rfl rfl rfl
  trans := Stays.trans
  enter := fun _ _ => stays_of_eq rfl rfl rfl
  renounce := fun _ _ => stays_of_eq rfl rfl rfl
  subscribe := fun _ _ => stays_of_eq rfl rfl rfl
  unsubscribe := fun _ _ => stays_of_eq rfl rfl rfl
  forget := stays_forget
  delistAll := fun _ => stays_of_eq rfl rfl rfl
  delist := fun r id _ => by
    have hdelist : Stays r (r.updateRegistry (·.delist id)) := stays_of_eq rfl rfl rfl
    exact hdelist.trans ((stays_forget _ id).trans (stays_post _ rfl))

theorem updateRegistry_eq_self {r : Relay} {f : Registry → Registry}
    (hf : f r.registry = r.registry) : r.updateRegistry f = r := by
  cases hm : r.manager with
  | none => cases r; simp_all [updateRegistry]
  | some m =>
    have hsame : f m.registry = m.registry := by simpa [registry, hm] using hf
    cases r
    simp_all [updateRegistry]

def cut (r : Relay) (k : SourceId) : Relay :=
  match r.channels.get? k with
  | none => r
  | some c => { r with channels := r.channels.erase k, agenda := r.agenda.postAll c.onClose }

theorem reap_eq (r : Relay) (k : SourceId) : r.reap k = if r.isHeld k then r else r.cut k := by
  unfold reap cut
  cases r.channels.get? k <;> simp

/-- The registry retains nothing any more. -/
def released (r : Relay) : Relay := r.updateRegistry fun g => { g with retained := .empty }

theorem released_cut (r : Relay) (k : SourceId) : (r.cut k).released = r.released.cut k := by
  have hchannels : r.released.channels = r.channels := rfl
  unfold cut
  rw [hchannels]
  cases r.channels.get? k <;> rfl

/-- No source has come, and no producer has begun to read or come back. -/
def Fewer (r s : Relay) : Prop := ∀ k d, s.channels.get? k = some d →
  ∃ c, r.channels.get? k = some c ∧ d.feed.source.reserved = c.feed.source.reserved

theorem Fewer.of_eq {r s : Relay} (h : s.channels = r.channels) : Fewer r s :=
  fun _ d hd => ⟨d, h ▸ hd, rfl⟩

theorem Fewer.trans {r s t : Relay} (h : Fewer r s) (h' : Fewer s t) : Fewer r t := by
  intro k e he
  obtain ⟨d, hd, hlast⟩ := h' k e he
  obtain ⟨c, hc, hreserved⟩ := h k d hd
  exact ⟨c, hc, hlast.trans hreserved⟩

theorem fewer_erase (r : Relay) (k : SourceId) :
    Fewer r { r with channels := r.channels.erase k } := by
  intro j d hd
  rw [Roster.get?_erase, Option.ite_none_left_eq_some] at hd
  exact ⟨d, hd.2, rfl⟩

theorem fewer_updateChannel (r : Relay) (k : SourceId) {f : Channel → Channel}
    (hf : ∀ c, (f c).feed.source.reserved = c.feed.source.reserved) :
    Fewer r (r.updateChannel k f) := by
  intro j d hd
  simp only [updateChannel, Roster.get?_modify] at hd
  split at hd
  · obtain ⟨c, hc, rfl⟩ := Option.map_eq_some_iff.mp hd
    exact ⟨c, hc, hf c⟩
  · exact ⟨d, hd, rfl⟩

/-- No source goes while its producer sits in a read. -/
def Prompt (r s : Relay) : Prop := ∀ k c, r.channels.get? k = some c →
  c.feed.source.reserved.isSome = true → (s.channels.get? k).isSome = true

variable {r s t : Relay} {k : SourceId}

theorem Prompt.left (h : r.Prompt t) (h' : Fewer s t) : r.Prompt s := by
  intro k c hc hread
  obtain ⟨e, he⟩ := Option.isSome_iff_exists.mp (h k c hc hread)
  obtain ⟨d, hd, _⟩ := h' k e he
  exact Option.isSome_of_eq_some hd

theorem Prompt.right (h : r.Prompt t) (h' : Fewer r s) : s.Prompt t := by
  intro k d hd hread
  obtain ⟨c, hc, hreserved⟩ := h' k d hd
  exact h k c hc (hreserved ▸ hread)

theorem stays_listing (m : Manager) (request : Request) (k : SourceId) (r : Relay) :
    Stays r (listing m request k r) := by
  intro h
  refine ⟨⟨?_, ?_, ?_⟩, rfl⟩
  · simp only [listing, Agenda.timer]
    split <;> exact h.running
  · intro j d hd t ht
    simp only [listing, updateRegistry, updateChannel, Roster.get?_modify] at hd
    split at hd
    · obtain ⟨c, hc, rfl⟩ := Option.map_eq_some_iff.mp hd
      have hold := h.harmless j c hc t
      simp only [List.mem_append, List.mem_singleton] at ht hold
      rcases ht with (ht | rfl) | (ht | rfl)
      · exact hold (Or.inl ht)
      · rfl
      · exact hold (Or.inr ht)
      · rfl
    · exact h.harmless j d hd t ht
  · simp only [listing, Agenda.timer]
    split <;> exact h.asked

theorem stays_perform (r : Relay) (t : Task) : Stays r (r.perform t) :=
  kept_stays.perform_of_listing r t fun m request k _ _ =>
    (stays_listing m request k r).trans (stays_post _ rfl)

theorem calm_detached (h : r.Calm) {name : String} {l : Listener}
    (hl : r.listeners.get? name = some l) (hmay : r.mayLeave name l = true) :
    (r.detached name l).Calm := by
  refine ⟨h.running, fun j d hd => ?_, fun t ht k hk => ?_⟩
  · simp only [detached, updateSource, updateChannel, Roster.get?_modify] at hd
    split at hd
    · obtain ⟨c, hc, rfl⟩ := Option.map_eq_some_iff.mp hd
      exact h.harmless j c hc
    · exact h.harmless j d hd
  · obtain ⟨i, o, ho, rfl⟩ := h.asked t ht k hk
    by_cases hsource : o.source = l.source
    · have hothers := List.all_eq_true.mp hmay t ht
      simp only [hk, hsource, ne_eq, not_true_eq_false, decide_false, Bool.false_or,
        List.any_eq_true, Roster.mem_values_iff, decide_eq_true_eq] at hothers
      obtain ⟨other, ⟨j, hj⟩, hother⟩ := hothers
      exact ⟨j, other, hj, hother.trans hsource.symm⟩
    · refine ⟨i, o, ?_, rfl⟩
      rw [detached, Roster.get?_erase, if_neg, ho]
      rintro rfl
      cases ho.symm.trans hl
      exact hsource rfl

theorem calm_joining (h : r.Calm) {name : String} (hname : r.listeners.get? name = none)
    (k : SourceId) : (r.joining k name).Calm ∧ Fewer r (r.joining k name) := by
  unfold joining
  cases hj : r.join? k name with
  | none => exact ⟨h, .of_eq rfl⟩
  | some joined =>
    obtain ⟨c, hjoined⟩ := joined_of_join? (l := joined.1) (s := joined.2) hj
    have hchannels : ∀ j d, joined.2.channels.get? j = some d →
        ∃ e, r.channels.get? j = some e ∧ d.feed.source.reserved = e.feed.source.reserved ∧
          d.onDetach = e.onDetach ∧ d.onClose = e.onClose := by
      intro j d hd
      rw [hjoined.channels] at hd
      split at hd
      · rename_i hjk
        cases hd
        exact ⟨c, hjk ▸ hjoined.before, rfl, rfl, rfl⟩
      · exact ⟨d, hd, rfl, rfl, rfl⟩
    refine ⟨⟨hjoined.agenda ▸ h.running, fun j d hd => ?_, ?_⟩, fun j d hd => ?_⟩
    · obtain ⟨e, he, _, hdetach, hclose⟩ := hchannels j d hd
      rw [hdetach, hclose]
      exact h.harmless j e he
    · rw [Option.map_some, Option.getD_some, hjoined.agenda]
      exact fun t ht k hk => hjoined.heard hname (h.asked t ht k hk)
    · obtain ⟨e, he, hreserved, _⟩ := hchannels j d hd
      exact ⟨e, he, hreserved⟩

theorem prompt_joining (r : Relay) (k : SourceId) (name : String) :
    r.Prompt (r.joining k name) := by
  intro j c hc _
  unfold joining
  cases hj : r.join? k name with
  | none => exact Option.isSome_of_eq_some hc
  | some joined =>
    obtain ⟨d, hjoined⟩ := joined_of_join? (l := joined.1) (s := joined.2) hj
    rw [Option.map_some, Option.getD_some, hjoined.channels]
    split
    · rfl
    · exact Option.isSome_of_eq_some hc

theorem channels_cancels (tags : List String) (r : Relay) :
    (tags.foldl cancelOnThread r).channels = r.channels := by
  induction tags generalizing r with
  | nil => rfl
  | cons tag tags ih =>
    rw [List.foldl_cons, ih]
    unfold cancelOnThread
    split
    · rfl
    · dsimp only
      split <;> rfl

theorem unlisted_of_none (h : r.manager = none) (id : ConnectionId) :
    r.registry.connections.contains id = false := by
  rw [registry_of_none h]
  rfl

/-- What is kept while subscribers are told: no connections come. -/
def Within (depth : Nat) (r s : Relay) : Prop :=
  r.Calm ∧ r.registry.count ≤ depth →
    (s.Calm ∧ s.registry.count ≤ depth) ∧ s.listeners = r.listeners

theorem telling_within (depth : Nat) : Telling (Within depth) := by
  have hcount := Delivery.telling_count depth
  have hstays := kept_stays.toTelling
  constructor
  · exact fun r h => ⟨h, rfl⟩
  · intro r s t h h' hr
    obtain ⟨hs, hlisteners⟩ := h hr
    obtain ⟨ht, hlast⟩ := h' hs
    exact ⟨ht, hlast.trans hlisteners⟩
  · exact fun r tag n h => ⟨⟨(hstays.tells r tag n h.1).1, h.2⟩, rfl⟩
  · exact fun r all h => ⟨⟨(hstays.renounce r all h.1).1, h.2⟩, rfl⟩
  · exact fun r id h => ⟨⟨(hstays.unsubscribe r id h.1).1, hcount.unsubscribe r id h.2⟩, rfl⟩
  · intro r id hlisted h
    obtain ⟨hcalm, hlisteners⟩ := hstays.delist r id hlisted h.1
    exact ⟨⟨hcalm, hcount.delist r id hlisted h.2⟩, hlisteners⟩

end Relay
end MediaRelay
