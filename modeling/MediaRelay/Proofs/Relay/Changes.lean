import MediaRelay.Proofs.Relay.Seats

/-! # What is done at one stroke

What listeners, producers and callers do at one stroke leaves all seats as they are, or seats one
more listener, or asks the thread for something; none of it takes anything away.
-/
namespace MediaRelay.Relay

variable {r s : Relay}

theorem get?_of_contains {name : String} (h : ¬r.listeners.contains name = true) :
    r.listeners.get? name = none := by
  rw [Roster.contains, Bool.not_eq_true, Option.isSome_eq_false_iff] at h
  exact Option.isNone_iff_eq_none.mp h

/-- The ways in which a relay changes at one stroke, other than by its thread, by a new source, and
by a listener that leaves. -/
inductive Touch (r : Relay) : Relay → Prop where
  | seats {s : Relay} : SameSeats r s → s.agenda = r.agenda → s.manager = r.manager →
      TasksGrow r s → Touch r s
  | joins {k : SourceId} {name : String} {c : Channel} {s : Relay} :
      r.listeners.get? name = none → Joined r k name c s → Touch r s
  | asks {t : Task} : (∀ k, adds? t = some k → r.Heard k) → Touch r (r.post t)

theorem sameSeats_refl (r : Relay) : SameSeats r r := ⟨rfl, fun _ => rfl, fun _ => rfl⟩

namespace Touch

theorem nothing (r : Relay) : Touch r r := by
  refine .seats r.sameSeats_refl rfl rfl (tasksGrow_of_eq ?_)
  intro k c d hc hd
  cases hc.symm.trans hd
  exact ⟨rfl, rfl⟩

theorem updateFeed (r : Relay) (k : SourceId) {f : Feed → Feed}
    (hf : ∀ g : Feed, g.source.SeatsAlike (f g).source) :
    Touch r (r.updateChannel k fun c => { c with feed := f c.feed }) := by
  refine .seats (r.sameSeats_updateChannel k fun c => outline_of_seatsAlike (hf c.feed)) rfl rfl
    (tasksGrow_of_eq ?_)
  intro j c d hc hd
  simp only [updateChannel, Roster.get?_modify, hc] at hd
  split at hd <;> cases hd <;> exact ⟨rfl, rfl⟩

theorem produce (r : Relay) (k : SourceId) : Touch r (r.make (.produce k)) := by
  refine updateFeed r k (f := fun g => g.step?.getD g) ?_
  intro g
  cases hs : g.step? with
  | none => exact Source.SeatsAlike.refl g.source
  | some next => exact Feed.seats_step? hs

theorem feed (r : Relay) (k : SourceId) (items : List InputItem) : Touch r (r.feed k items) :=
  updateFeed r k (f := fun g => { g with input := g.input.feed items })
    fun g => Source.SeatsAlike.refl g.source

theorem hang (r : Relay) (k : SourceId) {f : Channel → Channel}
    (hseats : ∀ c, outline (f c) = outline c) {a b : List Task}
    (hdetach : ∀ c, (f c).onDetach = c.onDetach ++ a) (hclose : ∀ c, (f c).onClose = c.onClose ++ b)
    (hnew : ∀ t ∈ a ++ b, adds? t = none) :
    Touch r (r.updateChannel k f) := by
  refine .seats (r.sameSeats_updateChannel k hseats) rfl rfl ?_
  intro j c d hc hd
  simp only [updateChannel, Roster.get?_modify, hc] at hd
  split at hd <;> cases hd
  · rw [hdetach, hclose]
    refine ⟨List.subset_append_left _ _, List.subset_append_left _ _, ?_⟩
    intro t ht
    simp only [List.mem_append] at ht hnew ⊢
    rcases ht with (hold | hnew') | (hold | hnew')
    · exact Or.inl (Or.inl hold)
    · exact Or.inr (hnew t (Or.inl hnew'))
    · exact Or.inl (Or.inr hold)
    · exact Or.inr (hnew t (Or.inr hnew'))
  · exact ⟨List.Subset.refl _, List.Subset.refl _, fun t ht => Or.inl ht⟩

theorem onClose (r : Relay) (k : SourceId) {t : Task} (ht : adds? t = none) :
    Touch r (r.onClose k t) :=
  hang r k (fun _ => rfl) (a := []) (b := [t]) (by simp) (fun _ => rfl) (by simpa using ht)

theorem onDetach (r : Relay) (k : SourceId) {t : Task} (ht : adds? t = none) :
    Touch r (r.onDetach k t) :=
  hang r k (fun _ => rfl) (a := [t]) (b := []) (fun _ => rfl) (by simp) (by simpa using ht)

theorem subscriptions (r : Relay) (all : Roster String Subscription) :
    Touch r (r.make (.subscriptions all)) := by
  refine .seats ⟨rfl, fun _ => rfl, fun _ => rfl⟩ rfl rfl (tasksGrow_of_eq ?_)
  intro k c d hc hd
  cases hc.symm.trans hd
  exact ⟨rfl, rfl⟩

theorem listened {name : String} {l : Listener} (hl : r.listeners.get? name = some l) {c : Channel}
    (hc : r.channels.get? l.source = some c) {rd : Reader} {f : Feed}
    (hcursor : rd.cursor = l.reader.cursor) (hsame : c.feed.source.SeatsAlike f.source) :
    Touch r
      { r.updateChannel l.source (fun c => { c with feed := f }) with
        listeners := r.listeners.modify name fun l => { l with reader := rd } } := by
  have hget := get?_updateChannel hc fun c => { c with feed := f }
  refine .seats ⟨rfl, ?_, ?_⟩ rfl rfl (tasksGrow_of_eq ?_)
  · intro j
    rw [hget]
    split
    · rename_i hj
      rw [hj, hc, Option.map_some, Option.map_some, outline_of_seatsAlike hsame]
    · rfl
  · intro i
    change ((r.listeners.modify name _).get? i).map seat = _
    rw [Roster.get?_modify]
    split
    · rename_i hi
      rw [hi, hl]
      simp only [Option.map_some, seat, hcursor]
    · rfl
  · intro j d e hd he
    rw [hget] at he
    split at he
    · rename_i hj
      rw [hj, hc] at hd
      cases hd
      cases he
      exact ⟨rfl, rfl⟩
    · cases hd.symm.trans he
      exact ⟨rfl, rfl⟩

theorem call (r : Relay) (name : String) (call : Call) :
    Touch r (r.make (.call name call)) := by
  simp only [make, listen?]
  cases hl : r.listeners.get? name with
  | none => exact nothing r
  | some l =>
    dsimp only
    cases hc : r.channels.get? l.source with
    | none => exact nothing r
    | some c =>
      dsimp only
      cases hact : call.act? l.reader c.feed.source with
      | none => exact nothing r
      | some p =>
        obtain ⟨hcursor, hsame⟩ := Reader.seats_act? hact
        exact listened hl hc hcursor hsame

theorem ask (r : Relay) {t : ManagerId → Task}
    (ht : ∀ i k, adds? (t i) = some k → r.Heard k) : Touch r (r.ask t) := by
  unfold Relay.ask
  cases r.manager with
  | none => exact nothing r
  | some manager => exact .asks (ht manager.id)

theorem command (r : Relay) {t : ManagerId → Task} (ht : ∀ i, adds? (t i) = none) :
    Touch r (r.ask t) := by
  apply ask r
  intro i k hk
  rw [ht] at hk
  cases hk

theorem add (r : Relay) (name : String) (request : Request) :
    Touch r (r.make (.add name request)) := by
  simp only [make]
  cases hl : r.listeners.get? name with
  | none => exact nothing r
  | some l =>
    apply ask r
    rintro i k ⟨⟩
    exact ⟨name, l, hl, rfl⟩

theorem joining (r : Relay) (k : SourceId) {name : String}
    (hname : r.listeners.get? name = none) : Touch r (r.joining k name) := by
  unfold Relay.joining
  cases hj : r.join? k name with
  | none => exact nothing r
  | some p =>
    obtain ⟨c, hjoined⟩ := joined_of_join? (s := p.2) (l := p.1) hj
    exact .joins hname hjoined

theorem attach (r : Relay) (other name : String) : Touch r (r.make (.attach other name)) := by
  simp only [make]
  split
  · rename_i hcontains _
    exact joining r _ (get?_of_contains (by simp [hcontains]))
  · exact nothing r

end Touch

end MediaRelay.Relay
