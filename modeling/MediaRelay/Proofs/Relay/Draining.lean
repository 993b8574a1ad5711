import MediaRelay.Proofs.Relay.Listing

/-! # The queue runs dry

The workload counts the tasks in the queue and all that may yet be posted by the time it is empty. A
task that runs leaves less of it, so as many tasks as the workload empty the queue, and no timer has
to fire.
-/
namespace MediaRelay.Relay

variable {r s t : Relay}

/-- The thread runs, and no source has another one listed when it goes. -/
structure Settling (r : Relay) : Prop where
  running : r.agenda.stopped = false
  harmless : ∀ k c, r.channels.get? k = some c → ∀ t ∈ c.onClose, adds? t = none

structure Eased (r s : Relay) : Prop where
  settling : s.Settling
  workload : s.workload ≤ r.workload

def Eases (r s : Relay) : Prop := r.Settling → Eased r s

namespace Eases

theorem trans (h : Eases r s) (h' : Eases s t) : Eases r t := by
  intro hr
  obtain ⟨hs, hle⟩ := h hr
  obtain ⟨ht, hle'⟩ := h' hs
  exact ⟨ht, Nat.le_trans hle' hle⟩

theorem of_eq (hagenda : s.agenda = r.agenda) (hchannels : s.channels = r.channels)
    (hcount : s.registry.count ≤ r.registry.count) : Eases r s := by
  intro hr
  refine ⟨⟨hagenda ▸ hr.running, hchannels ▸ hr.harmless⟩, ?_⟩
  unfold Relay.workload
  rw [hagenda, hchannels]
  omega

theorem updateRegistry (r : Relay) {f : Registry → Registry} (hf : ∀ g, (f g).count ≤ g.count) :
    Eases r (r.updateRegistry f) := by
  refine of_eq rfl rfl ?_
  cases hm : r.manager with
  | none => simp [Relay.updateRegistry, hm, registry]
  | some m =>
    rw [registry_updateRegistry hm]
    exact hf r.registry

end Eases

theorem cost_of_harmless {t : Task} (h : adds? t = none) : Task.cost t = 1 := by
  cases t with
  | add m request k => cases h
  | _ => rfl

theorem total_cost_of_harmless {ts : List Task} (h : ∀ t ∈ ts, adds? t = none) :
    total Task.cost ts = ts.length := by
  induction ts with
  | nil => rfl
  | cons t rest ih =>
    obtain ⟨hfirst, hrest⟩ := List.forall_mem_cons.mp h
    rw [total_cons, ih hrest, cost_of_harmless hfirst, List.length_cons, Nat.add_comm]

/-- The closing tasks of a source that goes have been counted before. -/
theorem eases_reap (r : Relay) (k : SourceId) : Eases r (r.reap k) := by
  intro hr
  rcases r.reap_cases k with ⟨he, _⟩ | ⟨c, hc, _, he⟩
  · rw [he]
    exact ⟨hr, Nat.le_refl _⟩
  · rw [he, Agenda.postAll_of_running hr.running]
    refine ⟨⟨hr.running, ?_⟩, ?_⟩
    · intro j d hd
      simp only [Roster.get?_erase, Option.ite_none_left_eq_some] at hd
      exact hr.harmless j d hd.2
    · have hchannels := Roster.total_erase hc fun c => c.onClose.length
      have hcost := total_cost_of_harmless (hr.harmless k c hc)
      simp only [Relay.workload, total_append, hcost]
      have hregistry : ∀ channels agenda,
          ({ r with channels := channels, agenda := agenda } : Relay).registry = r.registry :=
        fun _ _ => rfl
      rw [hregistry]
      omega

theorem eases_forget (r : Relay) (id : ConnectionId) : Eases r (r.forget id) := by
  unfold forget
  split
  · exact fun hr => ⟨hr, Nat.le_refl _⟩
  · have hforget := Eases.updateRegistry r (f := (·.forget id)) fun _ => Nat.le_refl _
    exact hforget.trans (eases_reap _ _)

theorem settling_post (h : r.Settling) (t : Task) : (r.post t).Settling := by
  refine ⟨?_, h.harmless⟩
  simp only [post, Agenda.post_of_running h.running]
  exact h.running

theorem workload_post (h : r.Settling) (t : Task) :
    (r.post t).workload = r.workload + Task.cost t := by
  have hagenda := Agenda.post_of_running h.running t
  simp only [Relay.workload, post, hagenda, total_append, total_cons, total_nil]
  have hregistry : ({ r with agenda := r.agenda.post t } : Relay).registry = r.registry := rfl
  rw [← hagenda, hregistry]
  omega

/-- The announcement that is posted stands for the connection that has gone. -/
theorem eases_delist {id : ConnectionId} (hlisted : r.registry.connections.contains id = true) :
    Eases r (((r.updateRegistry (·.delist id)).forget id).post .announce) := by
  intro hr
  obtain ⟨n, hn⟩ := Option.isSome_iff_exists.mp hlisted
  have hless : (r.updateRegistry (·.delist id)).workload + 1 = r.workload := by
    cases hm : r.manager with
    | none =>
      rw [registry_of_none hm] at hn
      cases hn
    | some m =>
      have hcount : (r.registry.delist id).count + 1 = r.registry.count := Roster.size_erase hn
      simp only [Relay.workload, registry_updateRegistry hm]
      simp only [Relay.updateRegistry]
      omega
  have hdelisted := (Eases.updateRegistry r (f := (·.delist id)) fun g =>
    List.length_filter_le _ g.connections.entries) hr
  have hforgotten := eases_forget (r.updateRegistry (·.delist id)) id hdelisted.settling
  refine ⟨settling_post hforgotten.settling _, ?_⟩
  have hle := hforgotten.workload
  have hcost : Task.cost .announce = 1 := rfl
  rw [workload_post hforgotten.settling, hcost]
  omega

theorem kept_eases : Kept Eases where
  refl := fun _ hr => ⟨hr, Nat.le_refl _⟩
  trans := Eases.trans
  enter := fun _ _ => Eases.of_eq rfl rfl (Nat.le_refl _)
  renounce := fun _ _ => Eases.of_eq rfl rfl (Nat.le_refl _)
  subscribe := fun r _ => Eases.updateRegistry r fun _ => Nat.le_refl _
  unsubscribe := fun r _ => Eases.updateRegistry r fun _ => Nat.le_refl _
  forget := eases_forget
  delistAll := fun r => Eases.updateRegistry r fun g => Nat.zero_le g.count
  delist := fun _ _ hlisted => eases_delist hlisted

theorem workload_listing (h : r.Settling) (m : Manager) (request : Request) (k : SourceId) :
    (listing m request k r).Settling ∧ (listing m request k r).workload ≤ r.workload + 2 := by
  have hcount : (r.updateRegistry (·.add request k)).registry.count ≤ r.registry.count + 1 := by
    cases hm : r.manager with
    | none => simp [updateRegistry, hm, registry]
    | some manager =>
      rw [registry_updateRegistry hm]
      exact Roster.size_put_le _ _ _
  let f := fun c : Channel => underId c m.id (r.updateRegistry (·.add request k)).registry.lastId
  have hform : (listing m request k r).channels = r.channels.modify k f := rfl
  have hagenda : (listing m request k r).agenda.queue = r.agenda.queue ∧
      (listing m request k r).agenda.stopped = r.agenda.stopped := by
    change (r.agenda.timer _ _).queue = _ ∧ (r.agenda.timer _ _).stopped = _
    unfold Agenda.timer
    split <;> exact ⟨rfl, rfl⟩
  have hregistry :
      (listing m request k r).registry = (r.updateRegistry (·.add request k)).registry := rfl
  refine ⟨⟨hagenda.2.trans h.running, ?_⟩, ?_⟩
  · intro j d hd t ht
    rw [hform, Roster.get?_modify] at hd
    split at hd
    · obtain ⟨c, hc, rfl⟩ := Option.map_eq_some_iff.mp hd
      rcases List.mem_append.mp ht with hold | hnew
      · exact h.harmless j c hc t hold
      · rw [List.mem_singleton.mp hnew]
        rfl
    · exact h.harmless j d hd t ht
  · have hchannels : total (fun c => c.onClose.length) (r.channels.modify k f).values ≤
        total (fun c => c.onClose.length) r.channels.values + 1 := by
      cases hc : r.channels.get? k with
      | none =>
        simp only [Roster.values, Roster.modify_of_fresh hc]
        omega
      | some c =>
        have htotal := Roster.total_modify hc f fun c => c.onClose.length
        have hlength : (f c).onClose.length = c.onClose.length + 1 := List.length_append
        omega
    simp only [Relay.workload, hform, hagenda.1, hregistry]
    omega

theorem workload_perform (h : r.Settling) (t : Task) :
    (r.perform t).Settling ∧ (r.perform t).workload < r.workload + Task.cost t := by
  cases hadds : adds? t with
  | none =>
    obtain ⟨hsettling, hle⟩ := kept_eases.perform r hadds h
    rw [cost_of_harmless hadds]
    exact ⟨hsettling, Nat.lt_succ_of_le hle⟩
  | some k =>
    cases t with
    | add m request k =>
      have hfour : Task.cost (.add m request k) = 4 := rfl
      have hnothing : r.workload < r.workload + Task.cost (.add m request k) := by omega
      simp only [perform]
      split
      · rename_i manager _
        split
        · obtain ⟨hlisting, hle⟩ := workload_listing h manager request k
          have htold := kept_eases.tellAll kept_eases.remove
            (listing manager request k r).registry.count _ (settling_post hlisting .announce)
          have hpost := workload_post hlisting .announce
          have hone : Task.cost .announce = 1 := rfl
          have hlower := htold.workload
          rw [add_eq]
          exact ⟨htold.settling, by omega⟩
        · exact ⟨h, hnothing⟩
      · exact ⟨h, hnothing⟩
    | _ => cases hadds

/-! ## From one task to all -/

theorem workload_runNext? (h : r.Settling) (hs : r.runNext? = some s) :
    s.Settling ∧ s.workload < r.workload := by
  unfold runNext? Agenda.next? at hs
  cases hq : r.agenda.queue with
  | nil => simp [hq] at hs
  | cons t rest =>
    simp only [hq, Option.some.injEq] at hs
    subst hs
    let taken : Relay := { r with agenda := { r.agenda with queue := rest } }
    have htaken : taken.Settling := ⟨h.running, h.harmless⟩
    have hworkload : r.workload = Task.cost t + taken.workload := by
      simp only [Relay.workload, hq, total_cons]
      have hregistry : taken.registry = r.registry := rfl
      rw [hregistry, Nat.add_assoc, Nat.add_assoc, Nat.add_assoc]
    obtain ⟨hsettling, hless⟩ := workload_perform htaken t
    refine ⟨hsettling, ?_⟩
    rw [hworkload, Nat.add_comm]
    exact hless

theorem queue_of_runNext? (h : r.runNext? = none) : r.agenda.queue = [] := by
  unfold runNext? Agenda.next? at h
  cases hq : r.agenda.queue with
  | nil => rfl
  | cons t rest => simp [hq] at h

/-- The thread runs, and no task is left. -/
structure Drained (s : Relay) : Prop where
  settling : s.Settling
  queue : s.agenda.queue = []

theorem drained_runUpTo {n : Nat} (h : r.Settling) (hn : r.workload ≤ n) :
    Drained (runUpTo n r).2 := by
  induction n generalizing r with
  | zero =>
    cases hs : r.runNext? with
    | none => exact ⟨h, queue_of_runNext? hs⟩
    | some s =>
      obtain ⟨_, hless⟩ := workload_runNext? h hs
      omega
  | succ n ih =>
    unfold runUpTo
    cases hs : r.runNext? with
    | none => exact ⟨h, queue_of_runNext? hs⟩
    | some s =>
      obtain ⟨hsettling, hless⟩ := workload_runNext? h hs
      exact ih hsettling (by omega)

theorem drained_drain (h : r.Settling) : Drained r.drain := drained_runUpTo h (Nat.le_refl _)

/-- Draining is nothing but running task after task. -/
theorem exists_runs (n : Nat) (r : Relay) :
    ∃ k, (runUpTo n r).2 = (List.replicate k Move.run).foldl make r := by
  induction n generalizing r with
  | zero => exact ⟨0, rfl⟩
  | succ n ih =>
    unfold runUpTo
    cases hs : r.runNext? with
    | none => exact ⟨0, rfl⟩
    | some s =>
      obtain ⟨k, hk⟩ := ih s
      refine ⟨k + 1, ?_⟩
      have hmake : r.make .run = s := by simp [make, hs]
      rw [List.replicate_succ, List.foldl_cons, hmake]
      exact hk

end MediaRelay.Relay
