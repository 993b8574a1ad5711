import MediaRelay.Proofs.Relay.Moves

/-! # Seats

Listeners and the cursors of live sources are the same thing. This stays so whatever the listeners
read and the producers bring, when a listener comes, and when one leaves.
-/
namespace MediaRelay.Relay

/-- Listeners and the cursors of live sources are the same thing. -/
structure Seated (r : Relay) : Prop where
  numbered : ∀ k, (r.channels.get? k).isSome → k < r.nextSource
  unowned : ∀ k c, r.channels.get? k = some c → c.owned = false
  issued : ∀ k c id, r.channels.get? k = some c → (c.feed.source.cursors.get? id).isSome →
    id < c.feed.source.nextCursor
  attached : ∀ name l, r.listeners.get? name = some l → ∃ c, r.channels.get? l.source = some c ∧
    (c.feed.source.cursors.get? l.reader.cursor).isSome
  manned : ∀ k c id, r.channels.get? k = some c → (c.feed.source.cursors.get? id).isSome →
    ∃ name l, r.listeners.get? name = some l ∧ l.source = k ∧ l.reader.cursor = id
  apart : ∀ i j l m, r.listeners.get? i = some l → r.listeners.get? j = some m →
    l.source = m.source → l.reader.cursor = m.reader.cursor → i = j

variable {r s : Relay}

theorem exists_channel (h : r.Seated) {k : SourceId} (hk : r.Heard k) :
    ∃ c, r.channels.get? k = some c := by
  obtain ⟨name, l, hl, rfl⟩ := hk
  obtain ⟨c, hc, _⟩ := h.attached name l hl
  exact ⟨c, hc⟩

/-! ## Changes of one source -/

section
variable {k j : SourceId} {d : Channel}
variable (h : ∀ j, s.channels.get? j = if j = k then some d else r.channels.get? j)
include h

theorem channel_cases {e : Channel} (he : s.channels.get? j = some e) :
    (j = k ∧ e = d) ∨ (j ≠ k ∧ r.channels.get? j = some e) := by
  rw [h] at he
  split at he
  · rename_i hj
    exact Or.inl ⟨hj, (Option.some.inj he).symm⟩
  · rename_i hj
    exact Or.inr ⟨hj, he⟩

theorem isSome_channel_iff {c : Channel} (hc : r.channels.get? k = some c) (j : SourceId) :
    (s.channels.get? j).isSome ↔ (r.channels.get? j).isSome := by
  rw [h]
  split
  · rename_i hj
    simp [hj, hc]
  · rfl

end

/-! ## Changes that leave all seats as they are -/

structure Outline where
  owned : Bool
  nextCursor : CursorId
  hasCursor : CursorId → Bool

def outline (c : Channel) : Outline where
  owned := c.owned
  nextCursor := c.feed.source.nextCursor
  hasCursor := fun id => (c.feed.source.cursors.get? id).isSome

theorem outline_of_seatsAlike {c : Channel} {f : Feed}
    (h : c.feed.source.SeatsAlike f.source) : outline { c with feed := f } = outline c := by
  have hcursors : (fun id => (f.source.cursors.get? id).isSome) =
      fun id => (c.feed.source.cursors.get? id).isSome := by
    funext id
    exact h.cursors id
  simp only [outline, h.nextCursor, hcursors]

def seat (l : Listener) : SourceId × CursorId := (l.source, l.reader.cursor)

structure SameSeats (r s : Relay) : Prop where
  nextSource : s.nextSource = r.nextSource
  channels : ∀ k, (s.channels.get? k).map outline = (r.channels.get? k).map outline
  listeners : ∀ name, (s.listeners.get? name).map seat = (r.listeners.get? name).map seat

namespace SameSeats

theorem symm (h : SameSeats r s) : SameSeats s r :=
  ⟨h.nextSource.symm, fun k => (h.channels k).symm, fun name => (h.listeners name).symm⟩

theorem channel (h : SameSeats r s) {k : SourceId} {c : Channel}
    (hc : s.channels.get? k = some c) :
    ∃ d, r.channels.get? k = some d ∧ outline d = outline c := by
  have hk := h.channels k
  rw [hc, Option.map_some] at hk
  exact Option.map_eq_some_iff.mp hk.symm

theorem listener (h : SameSeats r s) {name : String} {l : Listener}
    (hl : s.listeners.get? name = some l) :
    ∃ j, r.listeners.get? name = some j ∧ seat j = seat l := by
  have hn := h.listeners name
  rw [hl, Option.map_some] at hn
  exact Option.map_eq_some_iff.mp hn.symm

theorem isSome_iff (h : SameSeats r s) (k : SourceId) :
    (s.channels.get? k).isSome ↔ (r.channels.get? k).isSome := by
  rw [← Option.isSome_map, h.channels k, Option.isSome_map]

theorem heard (h : SameSeats r s) {k : SourceId} (hk : r.Heard k) : s.Heard k := by
  obtain ⟨name, l, hl, hsource⟩ := hk
  obtain ⟨j, hj, hseat⟩ := h.symm.listener hl
  exact ⟨name, j, hj, (congrArg Prod.fst hseat).trans hsource⟩

theorem seated (h : SameSeats r s) (hr : r.Seated) : s.Seated where
  numbered := by
    intro k hk
    rw [h.nextSource]
    exact hr.numbered k ((h.isSome_iff k).mp hk)
  unowned := by
    intro k c hc
    obtain ⟨d, hd, heq⟩ := h.channel hc
    exact (congrArg Outline.owned heq).symm.trans (hr.unowned k d hd)
  issued := by
    intro k c id hc hid
    obtain ⟨d, hd, heq⟩ := h.channel hc
    have hcursor := congrFun (congrArg Outline.hasCursor heq) id
    have hnext : d.feed.source.nextCursor = c.feed.source.nextCursor :=
      congrArg Outline.nextCursor heq
    exact hnext ▸ hr.issued k d id hd (hcursor.trans hid)
  attached := by
    intro name l hl
    obtain ⟨j, hj, hseat⟩ := h.listener hl
    obtain ⟨hsource, hcursor⟩ := Prod.mk.inj hseat
    obtain ⟨d, hd, hid⟩ := hr.attached name j hj
    rw [hsource] at hd
    rw [hcursor] at hid
    obtain ⟨c, hc, heq⟩ := h.symm.channel hd
    exact ⟨c, hc, (congrFun (congrArg Outline.hasCursor heq) l.reader.cursor).trans hid⟩
  manned := by
    intro k c id hc hid
    obtain ⟨d, hd, heq⟩ := h.channel hc
    have hcursor := congrFun (congrArg Outline.hasCursor heq) id
    obtain ⟨name, j, hj, hsource, hreader⟩ := hr.manned k d id hd (hcursor.trans hid)
    obtain ⟨l, hl, hseat⟩ := h.symm.listener hj
    obtain ⟨hs, hcur⟩ := Prod.mk.inj hseat
    exact ⟨name, l, hl, hs.trans hsource, hcur.trans hreader⟩
  apart := by
    intro i j l m hl hm hsource hcursor
    obtain ⟨l', hl', hseat⟩ := h.listener hl
    obtain ⟨m', hm', hseat'⟩ := h.listener hm
    obtain ⟨hs, hc⟩ := Prod.mk.inj hseat
    obtain ⟨hs', hc'⟩ := Prod.mk.inj hseat'
    exact hr.apart i j l' m' hl' hm' (hs.trans (hsource.trans hs'.symm))
      (hc.trans (hcursor.trans hc'.symm))

end SameSeats

theorem Seated.updateRegistry (h : r.Seated) (f : Registry → Registry) :
    (r.updateRegistry f).Seated := by
  have hsame : SameSeats r (r.updateRegistry f) := ⟨rfl, fun _ => rfl, fun _ => rfl⟩
  exact hsame.seated h

theorem get?_updateChannel {k : SourceId} {c : Channel} (hc : r.channels.get? k = some c)
    (f : Channel → Channel) (j : SourceId) :
    (r.updateChannel k f).channels.get? j = if j = k then some (f c) else r.channels.get? j := by
  simp only [updateChannel, Roster.get?_modify]
  split
  · rename_i hj
    rw [hj, hc]
    rfl
  · rfl

theorem sameSeats_updateChannel (r : Relay) (k : SourceId) {f : Channel → Channel}
    (hf : ∀ c, outline (f c) = outline c) : SameSeats r (r.updateChannel k f) where
  nextSource := rfl
  channels := by
    intro j
    simp only [updateChannel, Roster.get?_modify]
    split
    · simp [Function.comp_def, hf]
    · rfl
  listeners := fun _ => rfl

/-- Sources get further tasks, which list nothing, or none. -/
def TasksGrow (r s : Relay) : Prop :=
  ∀ k c d, r.channels.get? k = some c → s.channels.get? k = some d →
    c.onDetach ⊆ d.onDetach ∧ c.onClose ⊆ d.onClose ∧
      ∀ t ∈ d.onDetach ++ d.onClose, t ∈ c.onDetach ++ c.onClose ∨ adds? t = none

theorem tasksGrow_of_eq (h : ∀ k c d, r.channels.get? k = some c → s.channels.get? k = some d →
    d.onDetach = c.onDetach ∧ d.onClose = c.onClose) : TasksGrow r s := by
  intro k c d hc hd
  obtain ⟨hdetach, hclose⟩ := h k c d hc hd
  rw [hdetach, hclose]
  exact ⟨List.Subset.refl _, List.Subset.refl _, fun t ht => Or.inl ht⟩

/-! ## Listeners that come -/

def seating (c : Channel) : Channel :=
  { c with
    feed.source.cursors := c.feed.source.cursors.put c.feed.source.nextCursor {}
    feed.source.nextCursor := c.feed.source.nextCursor + 1 }

theorem hasCursor_seating (c : Channel) (id : CursorId) :
    ((seating c).feed.source.cursors.get? id).isSome ↔
      id = c.feed.source.nextCursor ∨ (c.feed.source.cursors.get? id).isSome := by
  change ((c.feed.source.cursors.put c.feed.source.nextCursor {}).get? id).isSome ↔ _
  rw [Roster.get?_put]
  by_cases hi : id = c.feed.source.nextCursor <;> simp [hi]

/-- A listener of this name has come to a source. -/
structure Joined (r : Relay) (k : SourceId) (name : String) (c : Channel) (s : Relay) : Prop where
  before : r.channels.get? k = some c
  channels : ∀ j, s.channels.get? j = if j = k then some (seating c) else r.channels.get? j
  listeners : ∀ i, s.listeners.get? i =
    if i = name then some ⟨k, { cursor := c.feed.source.nextCursor }⟩ else r.listeners.get? i
  agenda : s.agenda = r.agenda
  manager : s.manager = r.manager
  nextSource : s.nextSource = r.nextSource

theorem joined_of_join? {k : SourceId} {name : String} {l : Listener}
    (hj : r.join? k name = some (l, s)) : ∃ c, Joined r k name c s := by
  unfold join? at hj
  cases hc : r.channels.get? k with
  | none => simp [hc] at hj
  | some c =>
    simp only [hc, Source.attach?] at hj
    split at hj
    · cases hj
    · rename_i hattach
      split at hattach
      · cases hattach
        cases hj
        refine ⟨c, hc, get?_updateChannel hc _, ?_, rfl, rfl, rfl⟩
        exact fun i => r.listeners.get?_put name i _
      · cases hattach

theorem join?_of_start {k : SourceId} {c : Channel} (hc : r.channels.get? k = some c)
    (hstart : c.feed.source.floor = 0) (name : String) :
    r.join? k name =
      some (⟨k, { cursor := c.feed.source.nextCursor }⟩,
        { r with
          channels := r.channels.modify k seating
          listeners := r.listeners.put name ⟨k, { cursor := c.feed.source.nextCursor }⟩ }) := by
  simp only [join?, hc, Source.attach?, if_pos hstart, updateSource, updateChannel]
  congr 3
  exact Roster.modify_congr hc rfl

theorem join?_of_evicted {k : SourceId} {c : Channel} (hc : r.channels.get? k = some c)
    (hevicted : c.feed.source.floor ≠ 0) (name : String) : r.join? k name = none := by
  simp only [join?, hc, Source.attach?, if_neg hevicted]

namespace Joined
variable {k : SourceId} {name : String} {c : Channel}

theorem heard (h : Joined r k name c s) (hname : r.listeners.get? name = none) {j : SourceId}
    (hj : r.Heard j) : s.Heard j := by
  obtain ⟨i, l, hl, hsource⟩ := hj
  refine ⟨i, l, ?_, hsource⟩
  rw [h.listeners, if_neg, hl]
  rintro rfl
  rw [hname] at hl
  cases hl

theorem channel (h : Joined r k name c s) {j : SourceId} {e : Channel}
    (he : s.channels.get? j = some e) :
    (j = k ∧ e = seating c) ∨ (j ≠ k ∧ r.channels.get? j = some e) :=
  channel_cases h.channels he

theorem any_channel (h : Joined r k name c s) {holds : Channel → Bool}
    (hc : holds c = true → holds (seating c) = true) {j : SourceId}
    (hj : (r.channels.get? j).any holds = true) : (s.channels.get? j).any holds = true := by
  rw [h.channels]
  split
  · rename_i hk
    rw [hk, h.before] at hj
    exact hc hj
  · exact hj

theorem seated (h : Joined r k name c s) (hr : r.Seated)
    (hname : r.listeners.get? name = none) : s.Seated where
  numbered := by
    intro j hj
    rw [h.nextSource]
    obtain ⟨e, he⟩ := Option.isSome_iff_exists.mp hj
    rcases h.channel he with ⟨rfl, _⟩ | ⟨_, hold⟩
    · exact hr.numbered j (by simp [h.before])
    · exact hr.numbered j (by simp [hold])
  unowned := by
    intro j e he
    rcases h.channel he with ⟨_, rfl⟩ | ⟨_, hold⟩
    · exact hr.unowned k c h.before
    · exact hr.unowned j e hold
  issued := by
    intro j e id he hid
    rcases h.channel he with ⟨_, rfl⟩ | ⟨_, hold⟩
    · rcases (hasCursor_seating c id).mp hid with rfl | hid
      · exact Nat.lt_succ_self _
      · exact Nat.lt_succ_of_lt (hr.issued k c id h.before hid)
    · exact hr.issued j e id hold hid
  attached := by
    intro i l hl
    rw [h.listeners] at hl
    split at hl
    · cases hl
      exact ⟨seating c, (h.channels k).trans (if_pos rfl), (hasCursor_seating c _).mpr (Or.inl rfl)⟩
    · obtain ⟨e, he, hid⟩ := hr.attached i l hl
      by_cases hk : l.source = k
      · rw [hk, h.before] at he
        cases he
        have hseat := (hasCursor_seating c _).mpr (Or.inr hid)
        exact ⟨seating c, (h.channels _).trans (if_pos hk), hseat⟩
      · exact ⟨e, (h.channels _).trans ((if_neg hk).trans he), hid⟩
  manned := by
    have hold : ∀ j e id, r.channels.get? j = some e → (e.feed.source.cursors.get? id).isSome →
        ∃ i l, s.listeners.get? i = some l ∧ l.source = j ∧ l.reader.cursor = id := by
      intro j e id he hid
      obtain ⟨i, l, hl, hseat⟩ := hr.manned j e id he hid
      refine ⟨i, l, ?_, hseat⟩
      rw [h.listeners, if_neg, hl]
      rintro rfl
      rw [hname] at hl
      cases hl
    intro j e id he hid
    rcases h.channel he with ⟨rfl, rfl⟩ | ⟨_, he⟩
    · rcases (hasCursor_seating c id).mp hid with rfl | hid
      · exact ⟨name, _, (h.listeners name).trans (if_pos rfl), rfl, rfl⟩
      · exact hold j c id h.before hid
    · exact hold j e id he hid
  apart := by
    -- The cursor of the new listener has a number that no other one has had.
    have hnew : ∀ i l, r.listeners.get? i = some l → l.source = k →
        l.reader.cursor ≠ c.feed.source.nextCursor := by
      intro i l hl hk hcursor
      obtain ⟨e, he, hid⟩ := hr.attached i l hl
      rw [hk, h.before] at he
      cases he
      have hlt := hr.issued k c _ h.before hid
      rw [hcursor] at hlt
      exact Nat.lt_irrefl _ hlt
    intro i j l o hl ho hsource hcursor
    rw [h.listeners] at hl ho
    split at hl <;> split at ho
    · rename_i hi hj
      exact hi.trans hj.symm
    · cases hl
      exact absurd hcursor.symm (hnew j o ho hsource.symm)
    · cases ho
      exact absurd hcursor (hnew i l hl hsource)
    · exact hr.apart i j l o hl ho hsource hcursor

end Joined

theorem channels_openSource (r : Relay) (z : Sizing) (i : Input) (j : SourceId) :
    (r.openSource z i false).2.channels.get? j =
      if j = r.nextSource then some { feed := .start z i, owned := false }
      else r.channels.get? j :=
  r.channels.get?_put r.nextSource j _

theorem Seated.ne_nextSource (h : r.Seated) {k : SourceId} {c : Channel}
    (hc : r.channels.get? k = some c) : k ≠ r.nextSource :=
  Nat.ne_of_lt (h.numbered k (by simp [hc]))

theorem Seated.get?_openSource (h : r.Seated) (z : Sizing) (i : Input) {k : SourceId} {c : Channel}
    (hc : r.channels.get? k = some c) : (r.openSource z i false).2.channels.get? k = some c := by
  rw [channels_openSource, if_neg (h.ne_nextSource hc), hc]

theorem Seated.openSource (h : r.Seated) (z : Sizing) (i : Input) :
    (r.openSource z i false).2.Seated := by
  have hget := r.channels_openSource z i
  have hempty : ∀ id, ((Feed.start z i).source.cursors.get? id).isSome → False := by
    intro id hid
    cases hid
  constructor
  · intro j hj
    obtain ⟨d, hd⟩ := Option.isSome_iff_exists.mp hj
    rcases channel_cases hget hd with ⟨rfl, _⟩ | ⟨_, hold⟩
    · exact Nat.lt_succ_self _
    · exact Nat.lt_succ_of_lt (h.numbered j (by simp [hold]))
  · intro j d hd
    rcases channel_cases hget hd with ⟨_, rfl⟩ | ⟨_, hold⟩
    · rfl
    · exact h.unowned j d hold
  · intro j d id hd hid
    rcases channel_cases hget hd with ⟨_, rfl⟩ | ⟨_, hold⟩
    · exact (hempty id hid).elim
    · exact h.issued j d id hold hid
  · intro name l hl
    obtain ⟨d, hd, hid⟩ := h.attached name l hl
    exact ⟨d, h.get?_openSource z i hd, hid⟩
  · intro j d id hd hid
    rcases channel_cases hget hd with ⟨_, rfl⟩ | ⟨_, hold⟩
    · exact (hempty id hid).elim
    · exact h.manned j d id hold hid
  · exact h.apart

theorem Seated.erase (h : r.Seated) {k : SourceId} (hk : ¬r.Heard k) :
    Seated { r with channels := r.channels.erase k } := by
  have hget := r.channels.get?_erase k
  have hkept : ∀ j c, (r.channels.erase k).get? j = some c →
      j ≠ k ∧ r.channels.get? j = some c := by
    intro j c hc
    rwa [hget, Option.ite_none_left_eq_some] at hc
  constructor
  · intro j hj
    obtain ⟨c, hc⟩ := Option.isSome_iff_exists.mp hj
    exact h.numbered j (by simp [(hkept j c hc).2])
  · exact fun j c hc => h.unowned j c (hkept j c hc).2
  · exact fun j c id hc => h.issued j c id (hkept j c hc).2
  · intro name l hl
    obtain ⟨c, hc, hid⟩ := h.attached name l hl
    refine ⟨c, ?_, hid⟩
    rw [hget, if_neg, hc]
    exact fun hsource => hk ⟨name, l, hl, hsource⟩
  · exact fun j c id hc => h.manned j c id (hkept j c hc).2
  · exact h.apart

/-! ## Listeners that go -/

def detached (r : Relay) (name : String) (l : Listener) : Relay :=
  { r.updateSource l.source (·.detach l.reader.cursor) with listeners := r.listeners.erase name }

/-- The listener of this name has left its source. -/
structure Left (r : Relay) (name : String) (l : Listener) (c d : Channel) (s : Relay) : Prop where
  listener : r.listeners.get? name = some l
  before : r.channels.get? l.source = some c
  owned : d.owned = c.owned
  onDetach : d.onDetach = c.onDetach
  onClose : d.onClose = c.onClose
  nextCursor : d.feed.source.nextCursor = c.feed.source.nextCursor
  hasCursor : ∀ id, (d.feed.source.cursors.get? id).isSome ↔
    id ≠ l.reader.cursor ∧ (c.feed.source.cursors.get? id).isSome
  channels : ∀ j, s.channels.get? j = if j = l.source then some d else r.channels.get? j
  listeners : ∀ i, s.listeners.get? i = if i = name then none else r.listeners.get? i
  agenda : s.agenda = r.agenda
  manager : s.manager = r.manager
  nextSource : s.nextSource = r.nextSource

theorem hasCursor_detach (s : Source) (id j : CursorId) :
    ((s.detach id).cursors.get? j).isSome ↔ j ≠ id ∧ (s.cursors.get? j).isSome := by
  unfold Source.detach
  split
  · rw [Source.evict_cursors, Roster.get?_erase]
    by_cases hj : j = id <;> simp [hj]
  · rename_i hcontains
    constructor
    · intro hsome
      refine ⟨?_, hsome⟩
      rintro rfl
      exact hcontains hsome
    · exact And.right

theorem exists_left (h : r.Seated) {name : String} {l : Listener}
    (hl : r.listeners.get? name = some l) : ∃ c d, Left r name l c d (r.detached name l) := by
  obtain ⟨c, hc, _⟩ := h.attached name l hl
  have hcursor := hasCursor_detach c.feed.source l.reader.cursor
  have hnext := (c.feed.source.touches_detach l.reader.cursor).nextCursor
  let source := c.feed.source.detach l.reader.cursor
  exact ⟨c, { c with feed := { c.feed with source := source } }, hl, hc, rfl, rfl, rfl, hnext,
    hcursor, get?_updateChannel hc _, r.listeners.get?_erase name, rfl, rfl, rfl⟩

namespace Left
variable {name : String} {l : Listener} {c d : Channel}

theorem others (h : Left r name l c d s) {i : String} {o : Listener} (hi : i ≠ name) :
    s.listeners.get? i = some o ↔ r.listeners.get? i = some o := by
  rw [h.listeners, if_neg hi]

theorem stays (h : Left r name l c d s) {i : String} {o : Listener}
    (ho : r.listeners.get? i = some o)
    (hne : o.source ≠ l.source ∨ o.reader.cursor ≠ l.reader.cursor) :
    s.listeners.get? i = some o := by
  refine (h.others ?_).mpr ho
  rintro rfl
  have hsame : o = l := Option.some.inj (ho.symm.trans h.listener)
  subst hsame
  exact hne.elim (fun hs => hs rfl) fun hc => hc rfl

theorem heard (h : Left r name l c d s) {k : SourceId} (hk : k ≠ l.source) (hr : r.Heard k) :
    s.Heard k := by
  obtain ⟨i, o, ho, rfl⟩ := hr
  exact ⟨i, o, h.stays ho (Or.inl hk), rfl⟩

theorem listener_of (h : Left r name l c d s) {i : String} {o : Listener}
    (ho : s.listeners.get? i = some o) : i ≠ name ∧ r.listeners.get? i = some o := by
  rwa [h.listeners, Option.ite_none_left_eq_some] at ho

theorem channel (h : Left r name l c d s) {j : SourceId} {e : Channel}
    (he : s.channels.get? j = some e) :
    (j = l.source ∧ e = d) ∨ (j ≠ l.source ∧ r.channels.get? j = some e) :=
  channel_cases h.channels he

theorem seated (h : Left r name l c d s) (hr : r.Seated) : s.Seated where
  numbered := by
    intro j hj
    rw [h.nextSource]
    obtain ⟨e, he⟩ := Option.isSome_iff_exists.mp hj
    rcases h.channel he with ⟨rfl, _⟩ | ⟨_, hold⟩
    · exact hr.numbered _ (by simp [h.before])
    · exact hr.numbered j (by simp [hold])
  unowned := by
    intro j e he
    rcases h.channel he with ⟨_, rfl⟩ | ⟨_, hold⟩
    · exact h.owned.trans (hr.unowned _ c h.before)
    · exact hr.unowned j e hold
  issued := by
    intro j e id he hid
    rcases h.channel he with ⟨_, rfl⟩ | ⟨_, hold⟩
    · rw [h.nextCursor]
      exact hr.issued _ c id h.before ((h.hasCursor id).mp hid).2
    · exact hr.issued j e id hold hid
  attached := by
    intro i o ho
    obtain ⟨hi, hold⟩ := h.listener_of ho
    obtain ⟨e, he, hid⟩ := hr.attached i o hold
    by_cases hk : o.source = l.source
    · refine ⟨d, (h.channels _).trans (if_pos hk), (h.hasCursor _).mpr ⟨?_, ?_⟩⟩
      · exact fun hcursor => hi (hr.apart i name o l hold h.listener hk hcursor)
      · rw [hk, h.before] at he
        cases he
        exact hid
    · exact ⟨e, (h.channels _).trans ((if_neg hk).trans he), hid⟩
  manned := by
    intro j e id he hid
    rcases h.channel he with ⟨rfl, rfl⟩ | ⟨hne, hold⟩
    · obtain ⟨hcursor, hid⟩ := (h.hasCursor id).mp hid
      obtain ⟨i, o, ho, hsource, rfl⟩ := hr.manned _ c id h.before hid
      exact ⟨i, o, h.stays ho (Or.inr hcursor), hsource, rfl⟩
    · obtain ⟨i, o, ho, rfl, hcursor⟩ := hr.manned j e id hold hid
      exact ⟨i, o, h.stays ho (Or.inl hne), rfl, hcursor⟩
  apart := by
    intro i j o p ho hp
    exact hr.apart i j o p (h.listener_of ho).2 (h.listener_of hp).2

end Left

end MediaRelay.Relay
