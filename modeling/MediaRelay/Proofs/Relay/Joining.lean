import MediaRelay.Proofs.Relay.Listing
import MediaRelay.Proofs.Session.Run

/-! # Which source a request joins

Of all listed connections that serve a request and whose sources are retained, the one with the
lowest id decides alone. If the start of its stream is still there, the request joins its source,
and no input is started. If not, the request has missed its window: no connection behind is looked
at, even one that could be joined.
-/
namespace MediaRelay

namespace Registry

/-- A listed connection serves the key, and its source is retained. -/
def Offers (r : Registry) (key : OutputKey) (id : ConnectionId) (k : SourceId) : Prop :=
  (r.connections.get? id).any (·.serves key) = true ∧ r.retained.get? id = some k

instance (r : Registry) (key : OutputKey) (id : ConnectionId) (k : SourceId) :
    Decidable (r.Offers key id k) :=
  inferInstanceAs (Decidable (_ ∧ _))

/-- The offer with the lowest id. -/
def Foremost (r : Registry) (key : OutputKey) (id : ConnectionId) (k : SourceId) : Prop :=
  r.Offers key id k ∧ ∀ j l, r.Offers key j l → id ≤ j

variable {r : Registry} {key : OutputKey} {id : ConnectionId} {k : SourceId}

theorem offer?_eq_some_iff {e : ConnectionId × Connection} :
    r.offer? key e = some (id, k) ↔
      e.1 = id ∧ e.2.serves key = true ∧ r.retained.get? e.1 = some k := by
  unfold offer?
  split
  · rename_i hserves
    simp only [hserves, true_and, Option.map_eq_some_iff, Prod.mk.injEq]
    constructor
    · rintro ⟨source, hretained, rfl, rfl⟩
      exact ⟨rfl, hretained⟩
    · rintro ⟨hid, hretained⟩
      exact ⟨k, hretained, hid, rfl⟩
  · rename_i hserves
    simp [hserves]

theorem offers_iff :
    r.Offers key id k ↔ ∃ e ∈ r.connections.entries, r.offer? key e = some (id, k) := by
  constructor
  · rintro ⟨hserves, hretained⟩
    obtain ⟨c, hc, hs⟩ := (Option.any_eq_true _ _).mp hserves
    have hmem := (r.connections.get?_eq_some_iff id c).mp hc
    exact ⟨(id, c), hmem, offer?_eq_some_iff.mpr ⟨rfl, hs, hretained⟩⟩
  · rintro ⟨⟨i, c⟩, he, hsome⟩
    obtain ⟨rfl, hserves, hretained⟩ := offer?_eq_some_iff.mp hsome
    have hc := (r.connections.get?_eq_some_iff i c).mpr he
    exact ⟨by rw [hc]; exact hserves, hretained⟩

theorem foremost_of_candidate? (h : r.candidate? key = some (id, k)) : r.Foremost key id k := by
  obtain ⟨front, e, back, hentries, he, hnone⟩ := List.findSome?_eq_some_iff.mp h
  refine ⟨offers_iff.mpr ⟨e, by simp [hentries], he⟩, ?_⟩
  intro j l hoffers
  obtain ⟨d, hd, hsome⟩ := offers_iff.mp hoffers
  obtain ⟨rfl, -⟩ := offer?_eq_some_iff.mp he
  obtain ⟨rfl, -⟩ := offer?_eq_some_iff.mp hsome
  have hsorted := List.pairwise_map.mp r.ascending
  rw [hentries] at hd hsorted
  -- No entry before the one that is found is an offer, and those behind have higher ids.
  rcases List.mem_append.mp hd with hfront | hback
  · rw [hnone d hfront] at hsome
    cases hsome
  · rcases List.mem_cons.mp hback with rfl | hlater
    · exact Int.le_refl _
    · have htail := (List.pairwise_append.mp hsorted).2.1
      exact Int.le_of_lt ((List.pairwise_cons.mp htail).1 d hlater)

theorem candidate?_eq_none_iff : r.candidate? key = none ↔ ∀ id k, ¬r.Offers key id k := by
  unfold candidate?
  rw [List.findSome?_eq_none_iff]
  constructor
  · intro h id k hoffers
    obtain ⟨e, he, hsome⟩ := offers_iff.mp hoffers
    rw [h e he] at hsome
    cases hsome
  · intro h e he
    cases hsome : r.offer? key e with
    | none => rfl
    | some p => exact absurd (offers_iff.mpr ⟨e, he, hsome⟩) (h p.1 p.2)

/-- The table stands in the order of the ids, so the first offer has the lowest one. -/
theorem candidate?_eq_some_iff : r.candidate? key = some (id, k) ↔ r.Foremost key id k := by
  refine ⟨foremost_of_candidate?, ?_⟩
  rintro ⟨hoffers, hleast⟩
  cases hc : r.candidate? key with
  | none => exact absurd hoffers (candidate?_eq_none_iff.mp hc id k)
  | some p =>
    obtain ⟨j, l⟩ := p
    obtain ⟨hother, hle⟩ := foremost_of_candidate? hc
    have hid : id = j := Int.le_antisymm (hleast j l hother) (hle id k hoffers)
    subst hid
    have hsource : l = k := Option.some.inj (hother.2.symm.trans hoffers.2)
    rw [hsource]

end Registry

namespace Relay

/-- The source is there with the start of its stream. -/
def isOpen (r : Relay) (k : SourceId) : Bool :=
  (r.channels.get? k).any fun c => c.feed.source.isAttachable

/-- What has changed, and what not, when a new listener has joined a source. -/
structure Joins (r : Relay) (k : SourceId) (name : String) (l : Listener) (joined : Relay) :
    Prop where
  source : l.source = k
  listed : joined.listeners.get? name = some l
  cursor : ∃ c, joined.channels.get? k = some c ∧
    c.feed.source.cursors.get? l.reader.cursor = some {}
  registry : joined.registry = r.registry
  journal : joined.journal = r.journal
  nextSource : joined.nextSource = r.nextSource

variable {r : Relay} {k : SourceId}

theorem join?_eq_none_iff (name : String) : r.join? k name = none ↔ r.isOpen k = false := by
  unfold join? isOpen
  cases hc : r.channels.get? k with
  | none => simp
  | some c =>
    by_cases hz : c.feed.source.floor = 0
    · simp [Source.attach?, Source.isAttachable, hz]
    · simp [Source.attach?, Source.isAttachable, hz]

theorem join?_joins {name : String} {l : Listener} {joined : Relay}
    (h : r.join? k name = some (l, joined)) :
    r.Joins k name l joined := by
  unfold join? at h
  cases hc : r.channels.get? k with
  | none => simp [hc] at h
  | some c =>
    by_cases hz : c.feed.source.floor = 0
    · simp only [hc, Source.attach?, if_pos hz, Option.some.injEq, Prod.mk.injEq] at h
      obtain ⟨rfl, rfl⟩ := h
      refine ⟨rfl, ?_, ?_, rfl, rfl, rfl⟩
      · rw [Roster.get?_put, if_pos rfl]
      · let s : Source := { c.feed.source with
          cursors := c.feed.source.cursors.put c.feed.source.nextCursor {}
          nextCursor := c.feed.source.nextCursor + 1 }
        refine ⟨{ c with feed := { c.feed with source := s } }, ?_, ?_⟩
        · change (r.channels.modify k _).get? k = _
          rw [Roster.get?_modify, if_pos rfl, hc]
          rfl
        · change (c.feed.source.cursors.put c.feed.source.nextCursor {}).get? _ = _
          rw [Roster.get?_put, if_pos rfl]
    · simp [hc, Source.attach?, hz] at h

theorem tryAttach_of_open {request : Request} {id : ConnectionId} (name : String)
    (hf : r.registry.Foremost request.key id k) (ho : r.isOpen k = true) :
    ∃ l joined, r.tryAttach request name = .ok (l, joined) ∧ r.Joins k name l joined := by
  have hc := Registry.candidate?_eq_some_iff.mpr hf
  cases hj : r.join? k name with
  | none =>
    rw [(join?_eq_none_iff name).mp hj] at ho
    cases ho
  | some p => exact ⟨p.1, p.2, by simp only [tryAttach, hc, hj], join?_joins hj⟩

theorem tryAttach_of_closed {request : Request} {id : ConnectionId} (name : String)
    (hf : r.registry.Foremost request.key id k) (ho : r.isOpen k = false) :
    r.tryAttach request name = .error (.windowClosed id) := by
  have hc := Registry.candidate?_eq_some_iff.mpr hf
  have hj := (join?_eq_none_iff name).mpr ho
  simp only [tryAttach, hc, hj]

theorem tryAttach_of_no_offer {request : Request} (name : String)
    (hn : ∀ id k, ¬r.registry.Offers request.key id k) :
    r.tryAttach request name = .error (.noMatch request.key) := by
  have hc := Registry.candidate?_eq_none_iff.mpr hn
  simp only [tryAttach, hc]

theorem foremost_or_no_offer (r : Relay) (key : OutputKey) :
    (∃ id k, r.registry.Foremost key id k) ∨ ∀ id k, ¬r.registry.Offers key id k := by
  cases hc : r.registry.candidate? key with
  | none => exact Or.inr (Registry.candidate?_eq_none_iff.mp hc)
  | some p => exact Or.inl ⟨p.1, p.2, Registry.candidate?_eq_some_iff.mp hc⟩

/-! ## Starts -/

theorem kept_journal : Kept fun r s => r.journal <+: s.journal where
  refl := fun r => List.prefix_refl r.journal
  trans := List.IsPrefix.trans
  enter := fun r e => List.prefix_append r.journal [e]
  renounce := fun r _ => List.prefix_refl r.journal
  subscribe := fun r _ => List.prefix_refl r.journal
  unsubscribe := fun r _ => List.prefix_refl r.journal
  forget := fun r id => (journal_forget r id).symm ▸ List.prefix_refl r.journal
  delistAll := fun r => List.prefix_refl r.journal
  delist := fun r id _ => by
    have hforget := journal_forget (r.updateRegistry (·.delist id)) id
    change r.journal <+: ((r.updateRegistry (·.delist id)).forget id).journal
    rw [hforget]
    exact List.prefix_refl r.journal

theorem journal_perform (r : Relay) (t : Task) : r.journal <+: (r.perform t).journal :=
  kept_journal.perform_of_listing r t fun _ _ _ _ _ => List.prefix_refl r.journal

theorem journal_runUpTo (n : Nat) (r : Relay) : r.journal <+: (r.runUpTo n).2.journal := by
  induction n generalizing r with
  | zero => exact List.prefix_refl _
  | succ n ih =>
    simp only [runUpTo, runNext?]
    cases r.agenda.next? with
    | none => exact List.prefix_refl _
    | some p => exact (journal_perform { r with agenda := p.2 } p.1).trans (ih _)

/-- A call that has missed is in the journal as one that starts an input, whatever comes of it. -/
theorem journal_openConnection {request : Request} {name : String} {e : AttachFailure}
    (h : r.tryAttach request name = .error e) (m : Manager) (start : Except InputFailure Input)
    (refusal : Option InputFailure) :
    r.journal ++ [.started] <+: (r.openConnection m request name start refusal).2.journal := by
  simp only [openConnection, h]
  cases start with
  | error cause => exact List.prefix_refl _
  | ok input =>
    cases refusal with
    | some cause => exact List.prefix_refl _
    | none =>
      simp only [openSource?]
      cases hj : join? _ _ name with
      | none => exact List.prefix_refl _
      | some joined =>
        have hjournal : joined.2.journal = r.journal ++ [.started] := (join?_joins hj).journal
        simp only [addConnection, send?]
        cases joined.2.agenda.stopped with
        | true => exact List.prefix_refl _
        | false =>
          rw [← hjournal]
          exact (journal_runUpTo _ joined.2).trans (journal_perform _ _)

/-- A request joins a source, and no input is started for it, exactly if this is the source of the
foremost connection and the start of its stream is still there. It misses a window exactly if the
foremost connection has lost the start of its stream, whatever connections are behind; then an input
is started. -/
theorem request_decided_by_foremost (r : Relay) (m : Manager) (request : Request) (name : String) :
    (∀ k, (∃ l joined, r.tryAttach request name = .ok (l, joined) ∧ r.Joins k name l joined ∧
        ∀ start refusal, r.openConnection m request name start refusal = (.ok l, joined)) ↔
      ∃ id, r.registry.Foremost request.key id k ∧ r.isOpen k = true) ∧
    ∀ id, (r.tryAttach request name = .error (.windowClosed id) ∧
        (∀ start refusal,
          r.journal ++ [.started] <+: (r.openConnection m request name start refusal).2.journal) ∧
        ∀ cause refusal, r.openConnection m request name (.error cause) refusal =
          (.error (.input cause), r.enter .started)) ↔
      ∃ k, r.registry.Foremost request.key id k ∧ r.isOpen k = false := by
  constructor
  · intro k
    constructor
    · rintro ⟨l, joined, hok, hjoins, -⟩
      rcases r.foremost_or_no_offer request.key with ⟨id, k', hf⟩ | hn
      · cases ho : r.isOpen k' with
        | true =>
          obtain ⟨l', joined', hok', hjoins'⟩ := tryAttach_of_open name hf ho
          rw [hok] at hok'
          cases hok'
          obtain rfl : k' = k := hjoins'.source.symm.trans hjoins.source
          exact ⟨id, hf, ho⟩
        | false =>
          rw [tryAttach_of_closed name hf ho] at hok
          cases hok
      · rw [tryAttach_of_no_offer name hn] at hok
        cases hok
    · rintro ⟨id, hf, ho⟩
      obtain ⟨l, joined, hok, hjoins⟩ := tryAttach_of_open name hf ho
      exact ⟨l, joined, hok, hjoins, fun start refusal => by simp only [openConnection, hok]⟩
  · intro id
    constructor
    · rintro ⟨hclosed, -⟩
      rcases r.foremost_or_no_offer request.key with ⟨id', k, hf⟩ | hn
      · cases ho : r.isOpen k with
        | true =>
          obtain ⟨l, joined, hok, -⟩ := tryAttach_of_open name hf ho
          rw [hok] at hclosed
          cases hclosed
        | false =>
          rw [tryAttach_of_closed name hf ho] at hclosed
          cases hclosed
          exact ⟨k, hf, ho⟩
      · rw [tryAttach_of_no_offer name hn] at hclosed
        cases hclosed
    · rintro ⟨k, hf, ho⟩
      have hclosed := tryAttach_of_closed name hf ho
      exact ⟨hclosed, journal_openConnection hclosed m,
        fun cause refusal => by simp only [openConnection, hclosed]⟩

def crowded (request : Request) : List Session.Step :=
  let ask : Session.Ask :=
    ⟨.given request.protocol, request.resource, request.endpoint, request.options⟩
  [.manager { sizing := ⟨1, 4⟩ } {},
    .openConnection "a" ask (.ok [.bytes ⟨#[1, 2, 3, 4]⟩ 0]),
    .chunk "a",
    .openConnection "b" ask (.ok [.bytes ⟨#[1, 2, 3, 4]⟩ 0])]

/-- A source that could be joined is not always joined. -/
theorem joinable_source_passed_over :
    ¬∀ (steps : List Session.Step) (request : Request) (name : String),
      let r := Session.after false steps
      (∃ id k, r.registry.Offers request.key id k ∧ r.isOpen k = true) →
        ∃ l joined, r.tryAttach request name = .ok (l, joined) ∧ r.isOpen l.source = true := by
  intro h
  let request : Request := ⟨{}, "m", "e", ""⟩
  have hoffers : (Session.after false (crowded request)).registry.Offers request.key 2 1 := by
    decide +kernel
  have hopen : (Session.after false (crowded request)).isOpen 1 = true := by
    decide +kernel
  have hmiss : ((Session.after false (crowded request)).tryAttach request "c").isOk = false := by
    decide +kernel
  obtain ⟨l, joined, hok, -⟩ := h (crowded request) request "c" ⟨2, 1, hoffers, hopen⟩
  rw [hok] at hmiss
  cases hmiss

end Relay
end MediaRelay
