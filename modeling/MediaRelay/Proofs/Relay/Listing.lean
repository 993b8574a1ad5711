import MediaRelay.Proofs.Relay.Seats

/-! # Listings

A listing makes itself known to its source: from then on the source has a task by which the listing
goes with it, and one by which the registry gives it up when a cursor leaves.
-/
namespace MediaRelay.Relay

variable {r s : Relay} {m : ManagerId}

def listing (m : Manager) (request : Request) (k : SourceId) (r : Relay) : Relay :=
  let r := r.updateRegistry (·.add request k)
  let id := r.registry.lastId
  let r := r.updateChannel k fun c =>
    { c with
      onClose := c.onClose ++ [.sourceClosed m.id id]
      onDetach := c.onDetach ++ [.cursorLeft m.id id] }
  { r with agenda := r.agenda.timer m.settings.dedupWindow (.windowElapsed m.id id) }

theorem add_eq (m : Manager) (request : Request) (k : SourceId) (r : Relay) :
    add m request k r =
      tellAll remove (listing m request k r).registry.count
        ((listing m request k r).post .announce) := rfl

/-- What all other work keeps is kept by any task, if it is kept by what an addition lists. -/
theorem Kept.perform_of_listing {R : Relay → Relay → Prop} (h : Kept R) (r : Relay) (t : Task)
    (hadd : ∀ m request k, t = .add m.id request k → r.manager = some m →
      R r ((listing m request k r).post .announce)) : R r (r.perform t) := by
  cases hadds : adds? t with
  | none => exact h.perform r hadds
  | some j =>
    cases t with
    | add i request k =>
      simp only [Relay.perform]
      split
      · rename_i manager hm
        split
        · rename_i hid
          have hlisted := hadd manager request k (by rw [hid]) hm
          rw [add_eq]
          exact h.trans hlisted (h.tellAll h.remove _ _)
        · exact h.refl r
      · exact h.refl r
    | _ => cases hadds

theorem registry_listing {manager : Manager} (hm : r.manager = some manager) (request : Request)
    (k : SourceId) : (listing manager request k r).registry = r.registry.add request k := by
  have hadded : (r.updateRegistry (·.add request k)).registry = r.registry.add request k :=
    registry_updateRegistry hm _
  exact hadded

def underId (c : Channel) (m : ManagerId) (id : ConnectionId) : Channel :=
  { c with
    onClose := c.onClose ++ [.sourceClosed m id]
    onDetach := c.onDetach ++ [.cursorLeft m id] }

structure Listed (r : Relay) (m : ManagerId) (request : Request) (k : SourceId) (c : Channel)
    (s : Relay) : Prop where
  before : r.channels.get? k = some c
  channels : ∀ j, s.channels.get? j =
    if j = k then some (underId c m (r.registry.lastId + 1)) else r.channels.get? j
  connections : ∀ i, s.registry.connections.get? i =
    if i = r.registry.lastId + 1 then some (.ofRequest (r.registry.lastId + 1) request k)
    else r.registry.connections.get? i
  retained : ∀ i, s.registry.retained.get? i =
    if i = r.registry.lastId + 1 then some k else r.registry.retained.get? i
  listeners : s.listeners = r.listeners
  nextSource : s.nextSource = r.nextSource
  queue : s.agenda.queue = r.agenda.queue

theorem listed_listing {manager : Manager} (hm : r.manager = some manager) (request : Request)
    {k : SourceId} {c : Channel} (hc : r.channels.get? k = some c) :
    Listed r manager.id request k c (listing manager request k r) := by
  have hadded : (r.updateRegistry (·.add request k)).registry = r.registry.add request k :=
    registry_updateRegistry hm _
  have hregistry := registry_listing hm request k
  have hid : (r.updateRegistry (·.add request k)).registry.lastId = r.registry.lastId + 1 := by
    rw [hadded]
    rfl
  have hsame : (r.updateRegistry (·.add request k)).channels.get? k = some c := hc
  refine
    { before := hc
      channels := ?_
      connections := ?_
      retained := ?_
      listeners := rfl
      nextSource := rfl
      queue := ?_ }
  · intro j
    have hform : (listing manager request k r).channels =
        ((r.updateRegistry (·.add request k)).updateChannel k fun c =>
          underId c manager.id (r.updateRegistry (·.add request k)).registry.lastId).channels := rfl
    rw [hform, hid, get?_updateChannel hsame]
    rfl
  · intro i
    rw [hregistry]
    exact r.registry.connections.get?_put _ i _
  · intro i
    rw [hregistry]
    exact r.registry.retained.get?_put _ i k
  · change (r.agenda.timer _ _).queue = _
    unfold Agenda.timer
    split <;> rfl

namespace Listed
variable {request : Request} {k : SourceId} {c : Channel}

theorem sameSeats (h : Listed r m request k c s) : SameSeats r s := by
  refine ⟨h.nextSource, ?_, fun _ => by rw [h.listeners]⟩
  intro j
  rw [h.channels]
  split
  · rename_i hj
    rw [hj, h.before]
    rfl
  · rfl

theorem heard_iff (h : Listed r m request k c s) (j : SourceId) : s.Heard j ↔ r.Heard j := by
  simp only [Heard, h.listeners]

end Listed

end MediaRelay.Relay
