import MediaRelay.Proofs.Relay.Offers

/-! # What takes a connection off the table

A connection goes from the table when a task removes it, or closes all connections, or when a
subscriber asks for its removal on being told of a change. Nothing else takes it away.
-/
namespace MediaRelay.Relay
variable {r s t : Relay} {asked : ConnectionId → Prop} {id : ConnectionId}

/-- A task by which a connection is taken off the table. -/
def Ends (r : Relay) (t : Task) (id : ConnectionId) : Prop :=
  ∃ m, r.isManagedBy m = true ∧ (t = .remove m id ∨ t = .sourceClosed m id ∨ t = .close m)

/-- A subscriber asks for the removal of a connection whenever it is told. -/
def Asked (r : Relay) (id : ConnectionId) : Prop :=
  ∃ u ∈ r.registry.subscribers.values, u.removes = some id

/-- No connection goes unasked, and nobody joins those who ask. -/
structure Drops (asked : ConnectionId → Prop) (r s : Relay) : Prop where
  gone : ∀ id ∈ r.registry.ids, id ∉ s.registry.ids → asked id
  subscribers : s.registry.subscribers.values ⊆ r.registry.subscribers.values

namespace Drops

theorem refl (r : Relay) : Drops asked r r :=
  ⟨fun _ hid hgone => absurd hid hgone, List.Subset.refl _⟩

theorem trans (h : Drops asked r s) (h' : Drops asked s t) : Drops asked r t := by
  refine ⟨fun id hid hgone => ?_, List.Subset.trans h'.subscribers h.subscribers⟩
  by_cases hbetween : id ∈ s.registry.ids
  · exact h'.gone id hbetween hgone
  · exact h.gone id hid hbetween

theorem of_registry (hids : s.registry.ids = r.registry.ids)
    (hsubscribers : s.registry.subscribers.values ⊆ r.registry.subscribers.values) :
    Drops asked r s := by
  refine ⟨fun id hid hgone => ?_, hsubscribers⟩
  rw [hids] at hgone
  exact absurd hid hgone

theorem asks (h : Drops asked r s) (hr : ∀ id, r.Asked id → asked id) :
    ∀ id, s.Asked id → asked id := by
  rintro id ⟨u, hu, hremoves⟩
  exact hr id ⟨u, h.subscribers hu, hremoves⟩

theorem unsubscribe (r : Relay) (id : SubscriberId) :
    Drops asked r (r.updateRegistry (·.unsubscribe id)) := by
  rcases r.registry_updateRegistry_cases (·.unsubscribe id) with h | h
  · exact of_registry (by rw [h]) (by rw [h]; exact List.Subset.refl _)
  · refine of_registry (by rw [h]; rfl) ?_
    rw [h]
    intro u hu
    obtain ⟨i, hi⟩ := ((r.registry.unsubscribe id).subscribers.mem_values_iff u).mp hu
    simp only [Registry.unsubscribe, Roster.get?_erase, Option.ite_none_left_eq_some] at hi
    exact (r.registry.subscribers.mem_values_iff u).mpr ⟨i, hi.2⟩

theorem cancels (tags : List String) (r : Relay) :
    Drops asked r (tags.foldl cancelOnThread r) := by
  induction tags generalizing r with
  | nil => exact refl r
  | cons tag rest ih =>
    refine trans ?_ (ih _)
    unfold cancelOnThread
    cases r.subscriptions.get? tag with
    | none => exact refl r
    | some s =>
      have hrenounced : Drops asked r { r with subscriptions := r.subscriptions.erase tag } :=
        of_registry rfl (List.Subset.refl _)
      dsimp only
      split
      · exact hrenounced.trans (unsubscribe _ s.subscriber)
      · exact hrenounced

theorem tellAll {remove : ConnectionId → Relay → Relay}
    (hremove : ∀ id s, asked id → (∀ i, s.Asked i → asked i) → Drops asked s (remove id s))
    (hr : ∀ id, r.Asked id → asked id) (n : Nat) : Drops asked r (tellAll remove n r) := by
  have htold : ∀ us : List Subscriber, us ⊆ r.registry.subscribers.values → ∀ s : Relay,
      Drops asked r s → Drops asked r (us.foldl (tell remove n) s) := by
    intro us
    induction us with
    | nil => exact fun _ _ hs => hs
    | cons u rest ih =>
      intro hus s hs
      refine ih (List.subset_of_cons_subset hus) _ ?_
      have hentered : Drops asked r (s.enter (.count u.tag n s.registry.count)) :=
        hs.trans (of_registry rfl (List.Subset.refl _))
      have hcancelled := hentered.trans (cancels u.cancels _)
      unfold tell
      cases hremoves : u.removes with
      | none => exact hcancelled
      | some id =>
        have hasked : asked id := hr id ⟨u, hus List.mem_cons_self, hremoves⟩
        exact hcancelled.trans (hremove id _ hasked (hcancelled.asks hr))
  exact htold _ (List.Subset.refl _) r (refl r)

theorem delist (h : asked id) (hlisted : r.registry.connections.contains id = true) :
    Drops asked r (((r.updateRegistry (·.delist id)).forget id).post .announce) := by
  have hregistry := registry_delisted hlisted
  refine ⟨fun i hi hgone => ?_, by rw [hregistry]; exact List.Subset.refl _⟩
  rw [hregistry] at hgone
  by_cases hne : i = id
  · rwa [hne]
  · have hleft : i ∈ (r.registry.delist id).ids := by
      rw [Registry.ids, Registry.delist, Roster.ids_erase]
      exact List.mem_filter.mpr ⟨hi, decide_eq_true hne⟩
    exact absurd hleft hgone

/-- Removals that subscribers ask for lie within the one that they are told of. -/
theorem removeWithin (depth : Nat) (h : asked id) (hr : ∀ i, r.Asked i → asked i) :
    Drops asked r (removeWithin depth id r) := by
  induction depth generalizing id r with
  | zero => exact refl r
  | succ depth ih =>
    unfold Relay.removeWithin
    split
    · rename_i hlisted
      have hdelisted := delist h hlisted
      exact hdelisted.trans (tellAll (fun _ _ => ih) (hdelisted.asks hr) _)
    · exact refl r

theorem remove (h : asked id) (hr : ∀ i, r.Asked i → asked i) : Drops asked r (remove id r) :=
  removeWithin _ h hr

end Drops

theorem eq_or_asked_of_remove {i : ConnectionId} (hid : id ∈ r.registry.ids)
    (hgone : id ∉ (remove i r).registry.ids) : id = i ∨ r.Asked id := by
  have hdrops : Drops (fun j => j = i ∨ r.Asked j) r (remove i r) :=
    .remove (Or.inl rfl) fun _ => Or.inr
  exact hdrops.gone id hid hgone

theorem asked_of_add {manager : Manager} (hm : r.manager = some manager) {request : Request}
    {k : SourceId} (hid : id ∈ (r.registry.add request k).ids)
    (hgone : id ∉ (add manager request k r).registry.ids) : r.Asked id := by
  let announced := (listing manager request k r).post .announce
  have hregistry : announced.registry = r.registry.add request k := registry_listing hm request k
  have hasked : ∀ i, announced.Asked i → r.Asked i := by
    rintro i ⟨u, hu, hremoves⟩
    rw [hregistry] at hu
    exact ⟨u, hu, hremoves⟩
  have hdrops : Drops r.Asked announced (add manager request k r) :=
    .tellAll (fun _ _ => .remove) hasked _
  rw [← hregistry] at hid
  exact hdrops.gone id hid hgone

/-- A connection that goes with a task is ended by it, or a subscriber asks for its removal. -/
theorem ends_of_perform {t : Task} (hid : id ∈ (r.listedBy t).ids)
    (hgone : id ∉ (r.perform t).registry.ids) : r.Ends t id ∨ r.Asked id := by
  have hkept : ∀ (b : Bool) {s : Relay}, id ∈ s.registry.ids →
      id ∉ (if b then s else r).registry.ids → id ∉ r.registry.ids := by
    intro b s hs hout
    cases b with
    | true => exact absurd hs hout
    | false => exact hout
  cases t with
  | add m request k =>
    cases hm : r.isManagedBy m with
    | false =>
      have hidle : r.perform (.add m request k) = r := by
        simp only [perform]
        cases hmanager : r.manager with
        | none => rfl
        | some manager =>
          have hother : manager.id ≠ m := by simpa [isManagedBy, hmanager] using hm
          exact if_neg hother
      rw [hidle] at hgone
      simp only [listedBy, hm, Bool.false_eq_true, if_false] at hid
      exact absurd hid hgone
    | true =>
      obtain ⟨manager, hmanager, rfl⟩ := exists_manager_of_managed hm
      simp only [perform, hmanager, if_true] at hgone
      simp only [listedBy, hm, if_true] at hid
      exact Or.inr (asked_of_add hmanager hid hgone)
  | remove m i =>
    simp only [perform] at hgone
    split at hgone
    · rename_i hm
      exact (eq_or_asked_of_remove hid hgone).imp_left fun he => ⟨m, hm, Or.inl (by rw [he])⟩
    · exact absurd hid hgone
  | sourceClosed m i =>
    simp only [perform] at hgone
    split at hgone
    · rename_i hm
      exact (eq_or_asked_of_remove hid hgone).imp_left fun he =>
        ⟨m, hm, Or.inr (Or.inl (by rw [he]))⟩
    · exact absurd hid hgone
  | close m =>
    simp only [perform] at hgone
    split at hgone
    · rename_i hm
      exact Or.inl ⟨m, hm, Or.inr (Or.inr rfl)⟩
    · exact absurd hid hgone
  | subscribe m s =>
    have hsame : id ∈ (r.updateRegistry (·.subscribe s)).registry.ids := by
      rcases r.registry_updateRegistry_cases (·.subscribe s) with he | he <;> rw [he] <;> exact hid
    exact absurd hid (hkept _ hsame hgone)
  | unsubscribe m i =>
    have hsame : id ∈ (r.updateRegistry (·.unsubscribe i)).registry.ids := by
      rcases r.registry_updateRegistry_cases (·.unsubscribe i) with he | he <;> rw [he] <;>
        exact hid
    exact absurd hid (hkept _ hsame hgone)
  | cursorLeft m i =>
    have hsame : id ∈ (r.forget i).registry.ids := by
      rw [registry_forget]
      exact hid
    exact absurd hid (hkept _ hsame hgone)
  | windowElapsed m i =>
    have hsame : id ∈ (r.forget i).registry.ids := by
      rw [registry_forget]
      exact hid
    exact absurd hid (hkept _ hsame hgone)
  | announce => exact absurd hid hgone
  | enter e => exact absurd hid hgone

theorem not_mem_of_ends {t : Task} (h : r.Ends t id) : id ∉ (r.perform t).registry.ids := by
  obtain ⟨m, hm, ht⟩ := h
  obtain ⟨gone, hturned⟩ := r.turned_perform t
  intro hlisted
  obtain ⟨hbefore, hstays⟩ := (hturned.turns.mem_ids_iff id).mp hlisted
  rw [entries_append, entries_left, List.append_nil] at hbefore
  rw [departures_append, List.mem_append, not_or] at hstays
  have hids : id ∈ r.registry.ids := by
    rcases hbefore with hids | hentered
    · exact hids
    · rcases ht with rfl | rfl | rfl <;> simp only [ownTurns] at hentered <;> split at hentered <;>
        simp [entries] at hentered
  refine hstays.1 ?_
  rcases ht with rfl | rfl | rfl
  · rw [ownTurns, if_pos ⟨hm, hids⟩]
    exact List.mem_cons_self
  · rw [ownTurns, if_pos ⟨hm, hids⟩]
    exact List.mem_cons_self
  · rw [ownTurns, if_pos hm, departures_left]
    exact hids

end MediaRelay.Relay
