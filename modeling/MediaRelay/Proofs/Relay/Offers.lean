import MediaRelay.Proofs.Relay.Joining
import MediaRelay.Proofs.Relay.Turns

/-! # What is offered after a task

As long as no connection goes, no source is given up and no stream loses its start, a task changes
what the registry offers only by listing another source, and that one is offered from then on.
-/
namespace MediaRelay

theorem eq_of_sublist_of_subset {α : Type} {l m : List α} (h : l.Sublist m) (hm : m.Nodup)
    (hsub : m ⊆ l) : l = m := by
  induction h with
  | slnil => rfl
  | @cons l m a h ih =>
    have ha : a ∈ m := h.subset (hsub List.mem_cons_self)
    exact absurd ha (List.nodup_cons.mp hm).1
  | @cons_cons l m a h ih =>
    obtain ⟨ha, hm⟩ := List.nodup_cons.mp hm
    rw [ih hm]
    intro x hx
    rcases List.mem_cons.mp (hsub (List.mem_cons_of_mem _ hx)) with rfl | hx'
    · exact absurd hx ha
    · exact hx'

namespace Registry
variable {g h : Registry} {key : OutputKey} {id : ConnectionId} {k : SourceId}

def serving (key : OutputKey) (g : Registry) : Nat :=
  g.connections.entries.countP fun e => e.2.serves key

/-- The same connections are listed, and the same sources retained for them. -/
structure Alike (g h : Registry) : Prop where
  connections : h.connections = g.connections
  retained : ∀ id ∈ h.ids, h.retained.get? id = g.retained.get? id

namespace Alike

theorem refl (g : Registry) : g.Alike g := ⟨rfl, fun _ _ => rfl⟩

theorem offers_iff (halike : g.Alike h) : h.Offers key id k ↔ g.Offers key id k := by
  rw [Offers, Offers, ← halike.connections]
  cases hc : h.connections.get? id with
  | none => simp
  | some n =>
    rw [halike.retained id ((h.connections.mem_ids_iff id).mpr (by simp [hc]))]

theorem serving (halike : g.Alike h) : h.serving key = g.serving key := by
  rw [Registry.serving, halike.connections, Registry.serving]

end Alike

theorem get?_next (g : Registry) : g.connections.get? (g.lastId + 1) = none := by
  cases hc : g.connections.get? (g.lastId + 1) with
  | none => rfl
  | some n =>
    have hlisted := (g.connections.mem_ids_iff (g.lastId + 1)).mpr (by simp [hc])
    exact absurd (g.issued _ hlisted) (Int.not_le_of_gt (Int.lt_succ g.lastId))

theorem offers_add_iff (g : Registry) (request : Request) (j : SourceId) :
    (g.add request j).Offers key id k ↔
      (id = g.lastId + 1 ∧ request.key = key ∧ k = j) ∨ g.Offers key id k := by
  have hconnection : (g.add request j).connections.get? id =
      if id = g.lastId + 1 then some (.ofRequest (g.lastId + 1) request j)
      else g.connections.get? id := g.connections.get?_put _ id _
  have hretained : (g.add request j).retained.get? id =
      if id = g.lastId + 1 then some j else g.retained.get? id := g.retained.get?_put _ id _
  rw [Offers, Offers, hconnection, hretained]
  by_cases hid : id = g.lastId + 1
  · simp [hid, g.get?_next, Connection.serves, Connection.ofRequest, eq_comm]
  · simp [hid]

theorem serving_add (g : Registry) (request : Request) (j : SourceId) :
    (g.add request j).serving key = g.serving key + if request.key = key then 1 else 0 := by
  have hentries :=
    Roster.entries_put_of_fresh g.get?_next (.ofRequest (g.lastId + 1) request j)
  have hserves : Connection.serves (.ofRequest (g.lastId + 1) request j) key =
      decide (request.key = key) := rfl
  simp only [serving, add, hentries, List.countP_append, List.countP_singleton, hserves,
    decide_eq_true_eq]

end Registry

namespace Relay
variable {r s t : Relay} {key : OutputKey} {id : ConnectionId} {k : SourceId}

def isSeated (r : Relay) (k : SourceId) (i : CursorId) : Bool :=
  (r.channels.get? k).any fun c => c.feed.source.cursors.contains i

/-- No connection goes, not even one that has come meanwhile, no source that has been retained is
given up, no stream loses its start, and no cursor leaves. -/
structure Undisturbed (r s : Relay) : Prop where
  ids : ∀ id ∈ r.registry.ids, id ∈ s.registry.ids
  newest : s.registry.lastId = r.registry.lastId ∨ s.registry.lastId ∈ s.registry.ids
  retained : ∀ e ∈ r.registry.retained.entries, e ∈ s.registry.retained.entries
  starts : ∀ k ∈ r.channels.ids, r.isOpen k = true → s.isOpen k = true
  cursors : ∀ e ∈ r.channels.entries, ∀ i ∈ e.2.feed.source.cursors.ids, s.isSeated e.1 i = true

instance (r s : Relay) : Decidable (r.Undisturbed s) :=
  decidable_of_iff (_ ∧ _ ∧ _ ∧ _ ∧ _)
    ⟨fun ⟨ids, newest, retained, starts, cursors⟩ => ⟨ids, newest, retained, starts, cursors⟩,
      fun h => ⟨h.ids, h.newest, h.retained, h.starts, h.cursors⟩⟩

/-- Connections may go, and the others stay as they are. -/
structure Spares (r s : Relay) : Prop where
  lastId : s.registry.lastId = r.registry.lastId
  connections : s.registry.connections.entries.Sublist r.registry.connections.entries
  retained : ∀ id ∈ s.registry.ids, s.registry.retained.get? id = r.registry.retained.get? id

namespace Spares

theorem of_eq (h : s.registry.lastId = r.registry.lastId)
    (hconnections : s.registry.connections = r.registry.connections)
    (hretained : s.registry.retained = r.registry.retained) : Spares r s :=
  ⟨h, hconnections ▸ List.Sublist.refl _, fun _ _ => by rw [hretained]⟩

theorem ids (h : Spares r s) : s.registry.ids.Sublist r.registry.ids := h.connections.map _

theorem trans (h : Spares r s) (h' : Spares s t) : Spares r t :=
  ⟨h'.lastId.trans h.lastId, h'.connections.trans h.connections,
    fun id hid => (h'.retained id hid).trans (h.retained id (h'.ids.subset hid))⟩

theorem updateRegistry (r : Relay) {f : Registry → Registry} (hlast : ∀ g, (f g).lastId = g.lastId)
    (hconnections : ∀ g, (f g).connections = g.connections)
    (hretained : ∀ g, (f g).retained = g.retained) : Spares r (r.updateRegistry f) := by
  rcases r.registry_updateRegistry_cases f with h | h
  · exact of_eq (by rw [h]) (by rw [h]) (by rw [h])
  · exact of_eq (by rw [h, hlast]) (by rw [h, hconnections]) (by rw [h, hretained])

end Spares

theorem telling_spares : Telling Spares where
  refl := fun _ => .of_eq rfl rfl rfl
  trans := Spares.trans
  tells := fun _ _ _ => .of_eq rfl rfl rfl
  renounce := fun _ _ => .of_eq rfl rfl rfl
  unsubscribe := fun r _ => .updateRegistry r (fun _ => rfl) (fun _ => rfl) fun _ => rfl
  delist := by
    intro r id hlisted
    have hregistry := registry_delisted hlisted
    refine ⟨by rw [hregistry]; rfl, ?_, ?_⟩
    · rw [hregistry]
      exact List.filter_sublist
    · intro i hi
      rw [hregistry] at hi ⊢
      have hne : i ≠ id := by
        have hleft : i ∈ (r.registry.delist id).ids := hi
        simp only [Registry.ids, Registry.delist, Roster.ids_erase, List.mem_filter,
          decide_eq_true_eq] at hleft
        exact hleft.2
      exact (r.registry.retained.get?_erase id i).trans (if_neg hne)

/-- The registry with what a task lists in it, if it does. -/
def listedBy (r : Relay) : Task → Registry
  | .add m request k => if r.isManagedBy m then r.registry.add request k else r.registry
  | _ => r.registry

theorem Spares.alike (h : Spares r s) (hids : ∀ id ∈ r.registry.ids, id ∈ s.registry.ids) :
    r.registry.Alike s.registry := by
  have hsame : s.registry.ids = r.registry.ids :=
    eq_of_sublist_of_subset h.ids r.registry.connections.nodup_ids hids
  have hlength : s.registry.connections.entries.length =
      r.registry.connections.entries.length := by
    have hmapped := congrArg List.length hsame
    simpa only [Registry.ids, Roster.ids, List.length_map] using hmapped
  exact ⟨Roster.eq_of_entries (h.connections.eq_of_length hlength), h.retained⟩

/-- A source that is not forgotten is still retained. -/
theorem alike_forget (h : r.Undisturbed (r.forget id)) :
    r.registry.Alike (r.forget id).registry := by
  have hretained := h.retained
  rw [registry_forget] at hretained ⊢
  refine ⟨rfl, fun i _ => ?_⟩
  cases hk : r.registry.retained.get? i with
  | none => simp [Registry.forget, Roster.get?_erase, hk]
  | some k =>
    have hmem := hretained (i, k) ((r.registry.retained.get?_eq_some_iff i k).mp hk)
    exact (Roster.get?_eq_some_iff _ i k).mpr hmem

theorem alike_clear (h : r.Undisturbed r.clear) : r.registry.Alike r.clear.registry := by
  obtain ⟨retained, hforgotten, _⟩ :=
    Registry.foldl_forget r.registry.retained.ids r.registry.delistAll
  have hspares := telling_spares.tellAll telling_spares.remove 0 r.cleared
  rw [← clear_eq] at hspares
  have hnone : r.clear.registry.connections.entries = [] := by
    have hcleared : r.cleared.registry.connections.entries = [] := by
      rw [registry_cleared, hforgotten]
      rfl
    exact List.sublist_nil.mp (hcleared ▸ hspares.connections)
  have hids : r.clear.registry.ids = [] := by rw [Registry.ids, Roster.ids, hnone, List.map_nil]
  have hbefore : r.registry.ids = [] := by
    refine List.eq_nil_iff_forall_not_mem.mpr fun id hid => ?_
    have hstays := h.ids id hid
    rw [hids] at hstays
    cases hstays
  have hempty : r.registry.connections.entries = [] := List.map_eq_nil_iff.mp hbefore
  refine ⟨Roster.eq_of_entries (hnone.trans hempty.symm), fun id hid => ?_⟩
  rw [hids] at hid
  cases hid

theorem alike_add {m : Manager} (hm : r.manager = some m) {request : Request}
    (h : r.Undisturbed (add m request k r)) :
    (r.registry.add request k).Alike (add m request k r).registry := by
  have hspares := telling_spares.tellAll telling_spares.remove
    (listing m request k r).registry.count ((listing m request k r).post .announce)
  rw [← add_eq] at hspares
  have hregistry : ((listing m request k r).post .announce).registry = r.registry.add request k :=
    registry_listing hm request k
  have hids : (r.registry.add request k).ids = r.registry.ids ++ [r.registry.lastId + 1] :=
    congrArg Table.ids (r.registry.table_add request k)
  have hlast : (add m request k r).registry.lastId = r.registry.lastId + 1 := by
    rw [hspares.lastId, hregistry]
    rfl
  have halike := hspares.alike ?_
  · rwa [hregistry] at halike
  · rw [hregistry, hids]
    intro id hid
    rcases List.mem_append.mp hid with hid | hid
    · exact h.ids id hid
    · rw [List.mem_singleton.mp hid, ← hlast]
      rcases h.newest with hsame | hnew
      · exact absurd (hlast.symm.trans hsame) (Int.ne_of_gt (Int.lt_succ _))
      · exact hnew

/-- A task that disturbs nothing leaves the registry with what it has listed. -/
theorem alike_perform (t : Task) (h : r.Undisturbed (r.perform t)) :
    (r.listedBy t).Alike (r.perform t).registry := by
  have hspares : ∀ {s}, Spares r s → r.Undisturbed s → r.registry.Alike s.registry :=
    fun hs hu => hs.alike hu.ids
  have hif : ∀ (m : ManagerId) {s}, (r.Undisturbed s → r.registry.Alike s.registry) →
      r.Undisturbed (if r.isManagedBy m then s else r) →
        r.registry.Alike (if r.isManagedBy m then s else r).registry := by
    intro m s hs hu
    split at hu
    · rename_i hm
      rw [if_pos hm]
      exact hs hu
    · rename_i hm
      rw [if_neg hm]
      exact .refl r.registry
  cases t with
  | add m request k =>
    cases hm : r.manager with
    | none =>
      simp only [perform, listedBy, isManagedBy, hm]
      exact .refl r.registry
    | some manager =>
      simp only [perform, hm] at h ⊢
      simp only [listedBy, isManagedBy, hm, Option.any_some, decide_eq_true_eq]
      by_cases hid : manager.id = m
      · rw [if_pos hid] at h
        rw [if_pos hid, if_pos hid]
        exact alike_add hm h
      · rw [if_neg hid, if_neg hid]
        exact .refl r.registry
  | remove m id => exact hif m (hspares (telling_spares.remove id r)) h
  | close m => exact hif m alike_clear h
  | subscribe m s =>
    exact hif m (hspares (.updateRegistry r (fun _ => rfl) (fun _ => rfl) fun _ => rfl)) h
  | unsubscribe m id =>
    exact hif m (hspares (.updateRegistry r (fun _ => rfl) (fun _ => rfl) fun _ => rfl)) h
  | sourceClosed m id => exact hif m (hspares (telling_spares.remove id r)) h
  | cursorLeft m id => exact hif m alike_forget h
  | windowElapsed m id => exact hif m alike_forget h
  | announce => exact .refl r.registry
  | enter e => exact .refl r.registry

/-! ## What is still to be listed -/

/-- The source that a task lists under a key, if it does. -/
def lists? (r : Relay) (key : OutputKey) : Task → Option SourceId
  | .add m request k => if r.isManagedBy m = true ∧ request.key = key then some k else none
  | _ => none

def pending (r : Relay) (key : OutputKey) : List SourceId :=
  r.agenda.queue.filterMap (r.lists? key)

theorem lists?_of_hangs {u : Task} (h : u.hangs = true) : r.lists? key u = none := by
  cases u with
  | add m request k => cases h
  | _ => rfl

theorem isManagedBy_of_id (h : s.manager.map Manager.id = r.manager.map Manager.id)
    (m : ManagerId) : s.isManagedBy m = r.isManagedBy m := by
  have hany : ∀ q : Relay, q.isManagedBy m = (q.manager.map Manager.id).any fun i => i = m := by
    intro q
    rw [isManagedBy, Option.any_map]
  rw [hany, hany, h]

theorem lists?_of_managed (h : ∀ m, s.isManagedBy m = r.isManagedBy m) :
    s.lists? key = r.lists? key := by
  funext u
  cases u with
  | add m request k => simp only [lists?, h]
  | _ => rfl

theorem pending_append (h : ∀ m, s.isManagedBy m = r.isManagedBy m) {ts : List Task}
    (hqueue : s.agenda.queue = r.agenda.queue ++ ts) (hts : ∀ u ∈ ts, r.lists? key u = none) :
    s.pending key = r.pending key := by
  rw [pending, lists?_of_managed h, hqueue, List.filterMap_append,
    List.filterMap_eq_nil_iff.mpr hts, List.append_nil, pending]

theorem pending_post (hrunning : r.agenda.stopped = false) (u : Task) :
    (r.post u).pending key = r.pending key ++ (r.lists? key u).toList := by
  have hlists : (r.post u).lists? key = r.lists? key := lists?_of_managed fun _ => rfl
  have hqueue : (r.post u).agenda.queue = r.agenda.queue ++ [u] := by
    rw [post, Agenda.post_of_running hrunning]
  rw [pending, hlists, hqueue, List.filterMap_append, ← pending, List.filterMap_cons]
  cases r.lists? key u <;> rfl

theorem Taken.pending {u : Task} {a : Agenda Task} (h : r.Taken u a) (hr : r.Hung)
    (key : OutputKey) :
    r.pending key = (r.lists? key u).toList ++ Relay.pending { r with agenda := a } key := by
  have hlists : Relay.lists? { r with agenda := a } key = r.lists? key :=
    lists?_of_managed fun _ => rfl
  rw [Relay.pending, Relay.pending, hlists]
  cases h with
  | queued hq =>
    rw [hq, List.filterMap_cons]
    cases r.lists? key u <;> rfl
  | due hu ht hq _ _ =>
    rw [lists?_of_hangs (ht ▸ hr.timers _ hu), hq, Option.toList_none, List.nil_append]

theorem offers_listedBy (r : Relay) (t : Task) :
    (∃ id, (r.listedBy t).Offers key id k) ↔
      r.lists? key t = some k ∨ ∃ id, r.registry.Offers key id k := by
  cases t with
  | add m request j =>
    cases hm : r.isManagedBy m with
    | false => simp [listedBy, lists?, hm]
    | true =>
      simp only [listedBy, lists?, hm, if_true, true_and, Registry.offers_add_iff]
      by_cases hkey : request.key = key
      · simp [hkey, exists_or, eq_comm]
      · simp [hkey]
  | _ => simp [listedBy, lists?]

theorem serving_listedBy (r : Relay) (t : Task) :
    (r.listedBy t).serving key =
      r.registry.serving key + (r.lists? key t).toList.length := by
  cases t with
  | add m request j =>
    cases hm : r.isManagedBy m with
    | false => simp [listedBy, lists?, hm]
    | true =>
      simp only [listedBy, lists?, hm, if_true, true_and, Registry.serving_add]
      by_cases hkey : request.key = key <;> simp [hkey]
  | _ => simp [listedBy, lists?]

/-! ## The numbers of sources -/

theorem kept_nextSource : Kept fun r s => s.nextSource = r.nextSource where
  refl := fun _ => rfl
  trans := fun h h' => h'.trans h
  enter := fun _ _ => rfl
  renounce := fun _ _ => rfl
  subscribe := fun _ _ => rfl
  unsubscribe := fun _ _ => rfl
  forget := nextSource_forget
  delistAll := fun _ => rfl
  delist := fun r id _ => nextSource_forget (r.updateRegistry (·.delist id)) id

theorem nextSource_perform (r : Relay) (t : Task) : (r.perform t).nextSource = r.nextSource :=
  kept_nextSource.perform_of_listing r t fun _ _ _ _ _ => rfl

end Relay
end MediaRelay
