import MediaRelay.Proofs.Relay.Anchors

/-! # What a caller finds who looks for a source

A caller who looks for a source to join finds it by way of two tables that are not in step:
connections stay listed when their sources are retained no longer. As what is retained is alive, the
caller either has a new cursor at the start of a stream that is served under the key, or learns the
truth about what is listed, and changes nothing.
-/
namespace MediaRelay.Relay

variable {r : Relay}

/-- A new cursor at the start of a stream that is served for the request, as the only change. -/
structure Admits (r : Relay) (request : Request) (name : String) (id : ConnectionId)
    (n : Connection) (c : Channel) (l : Listener) (s : Relay) : Prop where
  listed : r.registry.connections.get? id = some n
  retained : r.registry.retained.get? id = some n.source
  protocol : n.key.protocol = request.protocol.identity
  resource : n.key.resource = request.resource
  endpoint : n.key.endpoint = request.endpoint
  options : n.key.options = request.options
  alive : r.channels.get? n.source = some c
  listener : l = ⟨n.source, { cursor := c.feed.source.nextCursor }⟩
  fresh : c.feed.source.cursors.get? l.reader.cursor = none
  seated : (seating c).feed.source.cursors.get? l.reader.cursor = some ⟨0, 0⟩
  frame : s = { r with
    channels := r.channels.modify n.source seating
    listeners := r.listeners.put name l }

/-- A listed connection under the key has a retained source that has lost the start of its
stream. -/
structure Missed (r : Relay) (key : OutputKey) (id : ConnectionId) (n : Connection) (c : Channel) :
    Prop where
  listed : r.registry.connections.get? id = some n
  retained : r.registry.retained.get? id = some n.source
  key : n.key = key
  alive : r.channels.get? n.source = some c
  evicted : 0 < c.feed.source.floor

theorem offers_of_candidate? {g : Registry} {key : OutputKey} {id : ConnectionId}
    {k : SourceId} (h : g.candidate? key = some (id, k)) :
    ∃ n, g.connections.get? id = some n ∧ n.key = key ∧ g.retained.get? id = some k := by
  obtain ⟨⟨hserves, hretained⟩, _⟩ := Registry.foremost_of_candidate? h
  obtain ⟨n, hn, hkey⟩ := (Option.any_eq_true _ _).mp hserves
  exact ⟨n, hn, of_decide_eq_true hkey, hretained⟩

theorem get?_next_of_issues {c : Channel} (h : c.Issues) :
    c.feed.source.cursors.get? c.feed.source.nextCursor = none := by
  refine Option.eq_none_iff_forall_ne_some.mpr fun cursor hcursor => ?_
  exact Nat.lt_irrefl _ (h c.feed.source.nextCursor (by simp [hcursor]))

/-- What a caller has found in the tables, or has not found there. -/
theorem Anchored.attach_tells (h : r.Anchored) (hkempt : r.registry.Kempt) (request : Request)
    (name : String) :
    match r.tryAttach request name with
    | .ok (l, s) => ∃ id n c, Admits r request name id n c l s
    | .error (.windowClosed id) => ∃ n c, Missed r request.key id n c
    | .error (.noMatch key) => key = request.key ∧ ∀ id ∈ r.registry.retained.ids,
        ∃ n, r.registry.connections.get? id = some n ∧ n.key ≠ key := by
  unfold tryAttach
  cases hcandidate : r.registry.candidate? request.key with
  | none =>
    refine ⟨rfl, fun id hid => ?_⟩
    have hlisted := (r.registry.connections.mem_ids_iff id).mp (hkempt.retained id hid)
    obtain ⟨n, hn⟩ := Option.isSome_iff_exists.mp hlisted
    obtain ⟨k, hk⟩ := Option.isSome_iff_exists.mp ((r.registry.retained.mem_ids_iff id).mp hid)
    refine ⟨n, hn, fun hkey => ?_⟩
    refine Registry.candidate?_eq_none_iff.mp hcandidate id k ⟨?_, hk⟩
    rw [hn]
    exact decide_eq_true hkey
  | some found =>
    obtain ⟨id, k⟩ := found
    obtain ⟨n, hn, hkey, hk⟩ := offers_of_candidate? hcandidate
    obtain rfl : n.source = k := h.agreed id n k hn hk
    obtain ⟨c, hc⟩ := Option.isSome_iff_exists.mp (h.alive n.source (Or.inr ⟨id, hk⟩))
    by_cases hstart : c.feed.source.floor = 0
    · simp only [join?_of_start hc hstart]
      exact ⟨id, n, c,
        { listed := hn
          retained := hk
          protocol := congrArg OutputKey.protocol hkey
          resource := congrArg OutputKey.resource hkey
          endpoint := congrArg OutputKey.endpoint hkey
          options := congrArg OutputKey.options hkey
          alive := hc
          listener := rfl
          fresh := get?_next_of_issues (h.issued n.source c hc)
          seated := (c.feed.source.cursors.get?_put _ _ _).trans (if_pos rfl)
          frame := rfl }⟩
    · simp only [join?_of_evicted hc hstart]
      exact ⟨n, c, hn, hk, hkey, hc, Nat.pos_of_ne_zero hstart⟩

/-- What it is to try is to do it under a name that is free. -/
theorem enact_tryAttach {name : String} (hname : r.listeners.get? name = none)
    (request : Request) :
    r.enact (.move (.tryAttach request name)) =
      match r.tryAttach request name with
      | .ok (_, s) => s
      | .error _ => r := by
  have hcontains : r.listeners.contains name = false := by simp [Roster.contains, hname]
  simp only [enact, make, hcontains]
  cases r.tryAttach request name <;> rfl

/-- After any deeds, as long as sources are listed for their listeners only. A caller who looks for
a source and finds one has a new cursor at the start of its stream; the source is retained for a
listed connection that has been asked for with the same protocol, resource, endpoint and options,
and nothing else has changed. A caller who has come too late is told of a listed connection under
the key whose source is retained, but has lost the start of its stream. A caller for whom there is
nothing is told so with the key, and no connection whose source is retained has this key. In neither
of these cases has anything changed. -/
theorem attach_finds_what_is_served (c : Settings) (catalog : Catalog) (deeds : List Deed)
    (hlisted : ∀ request k, .list request k ∉ deeds) (request : Request) (name : String) :
    let r := runDeeds c catalog deeds
    (match r.tryAttach request name with
      | .ok (l, s) => ∃ id n d, Admits r request name id n d l s
      | .error (.windowClosed id) => ∃ n d, Missed r request.key id n d
      | .error (.noMatch key) => key = request.key ∧ ∀ id ∈ r.registry.retained.ids,
          ∃ n, r.registry.connections.get? id = some n ∧ n.key ≠ key) ∧
    (r.listeners.get? name = none → r.enact (.move (.tryAttach request name)) =
      match r.tryAttach request name with
      | .ok (_, s) => s
      | .error _ => r) := by
  intro r
  have hanchored : r.Anchored := (Anchored.start c catalog).foldl hlisted
  have hkempt : r.registry.Kempt := (kept_foldl _ deeds).1 (kempt_start c catalog)
  exact ⟨hanchored.attach_tells hkempt request name, fun hname => enact_tryAttach hname request⟩

def offering (request : Request) : List Deed :=
  [.move (.openReader "a" {} {}), .move (.add "a" request), .move .run]

theorem listed_stream_is_found :
    let request : Request := ⟨{}, "m", "e", ""⟩
    (∀ request' k, .list request' k ∉ offering request) ∧
      ∃ id n c l s, Admits (runDeeds {} {} (offering request)) request "b" id n c l s := by
  intro request
  have hlisted : ∀ request' k, .list request' k ∉ offering request := by simp [offering]
  refine ⟨hlisted, ?_⟩
  have hfinds := (attach_finds_what_is_served {} {} (offering request) hlisted request "b").1
  have hok : ((runDeeds {} {} (offering request)).tryAttach request "b").isOk = true := by
    decide +kernel
  cases hattach : (runDeeds {} {} (offering request)).tryAttach request "b" with
  | error e =>
    rw [hattach] at hok
    cases hok
  | ok found =>
    rw [hattach] at hfinds
    obtain ⟨id, n, c, hadmits⟩ := hfinds
    exact ⟨id, n, c, found.1, found.2, hadmits⟩

end MediaRelay.Relay
