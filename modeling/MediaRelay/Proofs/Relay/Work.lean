import MediaRelay.Relay.Work

/-! # What the work of the thread changes

Apart from a new listing, the tasks of the manager's thread only take away: connections from the
table, sources from those that are retained, and each source that nobody holds any more from those
that are alive. Listeners are left alone. The queue grows by announcements, and by the closing tasks
of each source that goes.
-/
namespace MediaRelay

namespace Agenda
variable {τ : Type}

theorem post_of_running {a : Agenda τ} (h : a.stopped = false) (t : τ) :
    a.post t = { a with queue := a.queue ++ [t] } := by
  simp [post, h]

theorem postAll_of_running {a : Agenda τ} (h : a.stopped = false) (ts : List τ) :
    a.postAll ts = { a with queue := a.queue ++ ts } := by
  induction ts generalizing a with
  | nil => simp [postAll]
  | cons t rest ih =>
    have hpost := post_of_running h t
    have hrest := ih (a := a.post t) (by rw [hpost]; exact h)
    rw [postAll, List.foldl_cons, ← postAll, hrest, hpost, List.append_assoc]
    rfl

theorem postAll_of_stopped {a : Agenda τ} (h : a.stopped = true) (ts : List τ) :
    a.postAll ts = a := by
  have hpost : ∀ t, a.post t = a := fun t => by simp [post, h]
  induction ts with
  | nil => rfl
  | cons t rest ih => rw [postAll, List.foldl_cons, hpost, ← postAll, ih]

end Agenda

/-- Why the thread posts tasks while it works. -/
inductive Posting where
  | announced
  /-- Nobody holds the source any more. -/
  | gone (k : SourceId)

namespace Relay

/-- What is posted, with the tasks that the sources have at the moment. -/
def tasksOf (r : Relay) : Posting → List Task
  | .announced => [.announce]
  | .gone k => ((r.channels.get? k).map Channel.onClose).getD []

theorem flatMap_tasksOf {r s : Relay} {ps : List Posting}
    (h : ∀ p ∈ ps, s.tasksOf p = r.tasksOf p) : ps.flatMap s.tasksOf = ps.flatMap r.tasksOf := by
  rw [List.flatMap_def, List.flatMap_def, List.map_congr_left h]

def Heard (r : Relay) (k : SourceId) : Prop :=
  ∃ name l, r.listeners.get? name = some l ∧ l.source = k

def Retained (r : Relay) (k : SourceId) : Prop := ∃ id, r.registry.retained.get? id = some k

theorem isHeld_iff (r : Relay) (k : SourceId) :
    r.isHeld k = true ↔
      (∃ c, r.channels.get? k = some c ∧ c.owned = true) ∨ r.Heard k ∨ r.Retained k := by
  have hheard : (r.listeners.values.any fun l => l.source = k) = true ↔ r.Heard k := by
    simp only [List.any_eq_true, Roster.mem_values_iff, decide_eq_true_eq, Heard]
    constructor
    · rintro ⟨l, ⟨name, hl⟩, hk⟩
      exact ⟨name, l, hl, hk⟩
    · rintro ⟨name, l, hl, hk⟩
      exact ⟨l, ⟨name, hl⟩, hk⟩
  have hretained : r.registry.retained.values.contains k = true ↔ r.Retained k := by
    rw [List.contains_iff_mem, Roster.mem_values_iff]
    rfl
  rw [isHeld, isInUse, Bool.or_eq_true, Bool.or_eq_true, hheard, hretained, Option.any_eq_true,
    or_assoc]

theorem registry_updateRegistry {r : Relay} {m : Manager} (h : r.manager = some m)
    (f : Registry → Registry) : (r.updateRegistry f).registry = f r.registry := by
  simp [registry, updateRegistry, h]

theorem registry_of_none {r : Relay} (h : r.manager = none) : r.registry = .empty := by
  simp [registry, h]

theorem manager_updateRegistry (r : Relay) (f : Registry → Registry) :
    (r.updateRegistry f).manager.map Manager.id = r.manager.map Manager.id := by
  simp [updateRegistry, Function.comp_def]

theorem exists_manager_of_managed {r : Relay} {i : ManagerId} (h : r.isManagedBy i = true) :
    ∃ m, r.manager = some m ∧ m.id = i := by
  cases hm : r.manager with
  | none => simp [isManagedBy, hm] at h
  | some m => exact ⟨m, rfl, by simpa [isManagedBy, hm] using h⟩

theorem registry_updateRegistry_cases (r : Relay) (f : Registry → Registry) :
    (r.updateRegistry f).registry = r.registry ∨ (r.updateRegistry f).registry = f r.registry := by
  cases hm : r.manager with
  | none => exact Or.inl (by simp [updateRegistry, hm, registry])
  | some m => exact Or.inr (registry_updateRegistry hm f)

/-- What has become of a relay through work of its thread, and what has been posted meanwhile. -/
structure Works (r : Relay) (ps : List Posting) (s : Relay) : Prop where
  queue : s.agenda.queue = r.agenda.queue ++ ps.flatMap r.tasksOf
  timers : s.agenda.timers = r.agenda.timers
  running : s.agenda.stopped = r.agenda.stopped
  listeners : s.listeners = r.listeners
  nextSource : s.nextSource = r.nextSource
  manager : s.manager.map Manager.id = r.manager.map Manager.id
  lastId : s.registry.lastId = r.registry.lastId
  channels : ∀ k c, s.channels.get? k = some c → r.channels.get? k = some c
  connections : ∀ id n, s.registry.connections.get? id = some n →
    r.registry.connections.get? id = some n
  retained : ∀ id k, s.registry.retained.get? id = some k → r.registry.retained.get? id = some k
  released : ∀ k, (r.channels.get? k).isSome → s.channels.get? k = none → s.isHeld k = false
  gone : ∀ k, .gone k ∈ ps ↔ (r.channels.get? k).isSome ∧ s.channels.get? k = none

namespace Works
variable {r s t : Relay} {ps qs : List Posting}

theorem isHeld_of (h : Works r ps s) {k : SourceId} (hk : s.isHeld k = true) :
    r.isHeld k = true := by
  rw [isHeld_iff] at hk ⊢
  rcases hk with ⟨c, hc, ho⟩ | hheard | ⟨id, hid⟩
  · exact Or.inl ⟨c, h.channels k c hc, ho⟩
  · right; left
    unfold Heard at hheard
    rw [h.listeners] at hheard
    exact hheard
  · exact Or.inr (Or.inr ⟨id, h.retained id k hid⟩)

/-- A source that goes later has had the same tasks before. -/
theorem tasksOf_eq (h : Works r ps s) {p : Posting}
    (hp : ∀ k, p = .gone k → (s.channels.get? k).isSome) : s.tasksOf p = r.tasksOf p := by
  cases p with
  | announced => rfl
  | gone k =>
    obtain ⟨c, hc⟩ := Option.isSome_iff_exists.mp (hp k rfl)
    simp only [tasksOf, hc, h.channels k c hc]

theorem trans (h : Works r ps s) (h' : Works s qs t) : Works r (ps ++ qs) t := by
  have hgone : ∀ k, .gone k ∈ qs → (s.channels.get? k).isSome := fun k hk => ((h'.gone k).mp hk).1
  refine
    { queue := ?_
      timers := h'.timers.trans h.timers
      running := h'.running.trans h.running
      listeners := h'.listeners.trans h.listeners
      nextSource := h'.nextSource.trans h.nextSource
      manager := h'.manager.trans h.manager
      lastId := h'.lastId.trans h.lastId
      channels := fun k c hc => h.channels k c (h'.channels k c hc)
      connections := fun id n hn => h.connections id n (h'.connections id n hn)
      retained := fun id k hk => h.retained id k (h'.retained id k hk)
      released := ?_
      gone := ?_ }
  · have htasks : qs.flatMap s.tasksOf = qs.flatMap r.tasksOf := by
      apply flatMap_tasksOf
      rintro p hp
      apply h.tasksOf_eq
      rintro k rfl
      exact hgone k hp
    rw [h'.queue, h.queue, htasks, List.flatMap_append, List.append_assoc]
  · intro k hr ht
    cases hs : s.channels.get? k with
    | some c => exact h'.released k (by simp [hs]) ht
    | none =>
      refine Bool.eq_false_iff.mpr fun hheld => ?_
      have hcontra := h'.isHeld_of hheld
      rw [h.released k hr hs] at hcontra
      cases hcontra
  · intro k
    rw [List.mem_append, h.gone, h'.gone]
    constructor
    · rintro (⟨hr, hs⟩ | ⟨hs, ht⟩)
      · refine ⟨hr, Option.eq_none_iff_forall_ne_some.mpr ?_⟩
        intro c hc
        rw [h'.channels k c hc] at hs
        cases hs
      · obtain ⟨c, hc⟩ := Option.isSome_iff_exists.mp hs
        exact ⟨by simp [h.channels k c hc], ht⟩
    · rintro ⟨hr, ht⟩
      cases hs : s.channels.get? k with
      | none => exact Or.inl ⟨hr, rfl⟩
      | some c => exact Or.inr ⟨rfl, ht⟩

end Works

/-- What takes nothing away but connections and retained sources. -/
theorem works_of_eq {r s : Relay} (hagenda : s.agenda = r.agenda)
    (hlisteners : s.listeners = r.listeners) (hnext : s.nextSource = r.nextSource)
    (hchannels : s.channels = r.channels)
    (hmanager : s.manager.map Manager.id = r.manager.map Manager.id)
    (hlast : s.registry.lastId = r.registry.lastId)
    (hconnections : ∀ id n, s.registry.connections.get? id = some n →
      r.registry.connections.get? id = some n)
    (hretained : ∀ id k, s.registry.retained.get? id = some k →
      r.registry.retained.get? id = some k) : Works r [] s where
  queue := by simp [hagenda]
  timers := by rw [hagenda]
  running := by rw [hagenda]
  listeners := hlisteners
  nextSource := hnext
  manager := hmanager
  lastId := hlast
  channels := fun k c hc => hchannels ▸ hc
  connections := hconnections
  retained := hretained
  released := by
    intro k hr hs
    rw [hchannels] at hs
    simp [hs] at hr
  gone := by
    intro k
    rw [hchannels]
    simp only [List.not_mem_nil, false_iff, not_and]
    intro hsome hnone
    simp [hnone] at hsome

theorem works_refl (r : Relay) : Works r [] r :=
  works_of_eq rfl rfl rfl rfl rfl rfl (fun _ _ h => h) fun _ _ h => h

theorem works_updateRegistry (r : Relay) {f : Registry → Registry}
    (hlast : ∀ g, (f g).lastId = g.lastId)
    (hconnections : ∀ g id n, (f g).connections.get? id = some n → g.connections.get? id = some n)
    (hretained : ∀ g id k, (f g).retained.get? id = some k → g.retained.get? id = some k) :
    Works r [] (r.updateRegistry f) := by
  have hregistry := r.registry_updateRegistry_cases f
  refine works_of_eq rfl rfl rfl rfl (r.manager_updateRegistry f) ?_ ?_ ?_
  · rcases hregistry with h | h <;> rw [h]
    exact hlast r.registry
  · rcases hregistry with h | h <;> rw [h]
    · exact fun _ _ hn => hn
    · exact hconnections r.registry
  · rcases hregistry with h | h <;> rw [h]
    · exact fun _ _ hk => hk
    · exact hretained r.registry

theorem works_post {r : Relay} (h : r.agenda.stopped = false) :
    Works r [.announced] (r.post .announce) where
  queue := by simp [post, Agenda.post, h, tasksOf]
  timers := by simp [post, Agenda.post, h]
  running := by simp [post, Agenda.post, h]
  listeners := rfl
  nextSource := rfl
  manager := rfl
  lastId := rfl
  channels := fun _ _ hc => hc
  connections := fun _ _ hn => hn
  retained := fun _ _ hk => hk
  released := by
    intro k hr hs
    change r.channels.get? k = none at hs
    simp [hs] at hr
  gone := by
    intro k
    change _ ↔ (r.channels.get? k).isSome ∧ r.channels.get? k = none
    cases r.channels.get? k <;> simp

theorem reap_cases (r : Relay) (k : SourceId) :
    (r.reap k = r ∧ ((r.channels.get? k).isSome → r.isHeld k = true)) ∨
      ∃ c, r.channels.get? k = some c ∧ r.isHeld k = false ∧
        r.reap k =
          { r with channels := r.channels.erase k, agenda := r.agenda.postAll c.onClose } := by
  unfold reap
  cases hc : r.channels.get? k with
  | none => exact Or.inl ⟨rfl, by simp⟩
  | some c =>
    cases hheld : r.isHeld k with
    | true => exact Or.inl ⟨by simp, fun _ => rfl⟩
    | false => exact Or.inr ⟨c, rfl, rfl, by simp⟩

theorem works_reap {r : Relay} (h : r.agenda.stopped = false) (k : SourceId) :
    ∃ ps, Works r ps (r.reap k) := by
  rcases r.reap_cases k with ⟨he, _⟩ | ⟨c, hc, hfree, he⟩
  · refine ⟨[], ?_⟩
    rw [he]
    exact works_refl r
  · refine ⟨[.gone k], ?_⟩
    rw [he, Agenda.postAll_of_running h]
    have hget : ∀ j, (r.channels.erase k).get? j = if j = k then none else r.channels.get? j :=
      r.channels.get?_erase k
    refine
      { queue := by simp [tasksOf, hc]
        timers := rfl
        running := rfl
        listeners := rfl
        nextSource := rfl
        manager := rfl
        lastId := rfl
        channels := ?_
        connections := fun _ _ hn => hn
        retained := fun _ _ hk => hk
        released := ?_
        gone := ?_ }
    · intro j d hd
      rw [hget, Option.ite_none_left_eq_some] at hd
      exact hd.2
    · intro j hr hs
      rw [hget] at hs
      split at hs
      · rename_i hj
        rw [hj]
        refine Bool.eq_false_iff.mpr fun hheld => ?_
        rw [isHeld_iff] at hheld
        rcases hheld with ⟨d, hd, _⟩ | hheard | hretained
        · rw [hget, if_pos rfl] at hd
          cases hd
        · have hcontra := (r.isHeld_iff k).mpr (Or.inr (Or.inl hheard))
          rw [hfree] at hcontra
          cases hcontra
        · have hcontra := (r.isHeld_iff k).mpr (Or.inr (Or.inr hretained))
          rw [hfree] at hcontra
          cases hcontra
      · rw [hs] at hr
        cases hr
    · intro j
      simp only [List.mem_singleton, Posting.gone.injEq, hget]
      by_cases hj : j = k
      · simp [hj, hc]
      · simp only [hj, if_false, false_iff, not_and]
        intro hsome hnone
        simp [hnone] at hsome

theorem works_forget {r : Relay} (h : r.agenda.stopped = false) (id : ConnectionId) :
    ∃ ps, Works r ps (r.forget id) := by
  unfold forget
  cases hk : r.registry.retained.get? id with
  | none => exact ⟨[], works_refl r⟩
  | some k =>
    have hforget : Works r [] (r.updateRegistry (·.forget id)) := by
      apply works_updateRegistry
      · exact fun _ => rfl
      · exact fun _ _ _ hn => hn
      · intro g i j hi
        simp only [Registry.forget, Roster.get?_erase, Option.ite_none_left_eq_some] at hi
        exact hi.2
    obtain ⟨ps, hreap⟩ := works_reap (r := r.updateRegistry (·.forget id)) h k
    exact ⟨[] ++ ps, hforget.trans hreap⟩

/-! ## From one task to the next -/

/-- The source that a task lists, if it does. -/
def adds? : Task → Option SourceId
  | .add _ _ k => some k
  | _ => none

/-- What holds between before and after if it does so for all that telling the subscribers may bring
about. -/
structure Telling (R : Relay → Relay → Prop) : Prop where
  refl : ∀ r, R r r
  trans : ∀ {r s t}, R r s → R s t → R r t
  tells : ∀ r tag n, R r (r.enter (.count tag n r.registry.count))
  renounce : ∀ (r : Relay) all, R r { r with subscriptions := all }
  unsubscribe : ∀ r id, R r (r.updateRegistry (·.unsubscribe id))
  delist : ∀ r id, r.registry.connections.contains id = true →
    R r (((r.updateRegistry (·.delist id)).forget id).post .announce)

namespace Telling
variable {R : Relay → Relay → Prop}

theorem foldl (h : Telling R) {α : Type} {f : Relay → α → Relay} (hf : ∀ r a, R r (f r a))
    (xs : List α) (r : Relay) : R r (xs.foldl f r) := by
  induction xs generalizing r with
  | nil => exact h.refl r
  | cons a rest ih => exact h.trans (hf r a) (ih (f r a))

theorem cancel (h : Telling R) (r : Relay) (tag : String) : R r (r.cancelOnThread tag) := by
  unfold cancelOnThread
  cases r.subscriptions.get? tag with
  | none => exact h.refl r
  | some s =>
    have hrenounce := h.renounce r (r.subscriptions.erase tag)
    dsimp only
    split
    · exact h.trans hrenounce (h.unsubscribe _ s.subscriber)
    · exact hrenounce

theorem tellAll (h : Telling R) {remove : ConnectionId → Relay → Relay}
    (hremove : ∀ id r, R r (remove id r)) (n : Nat) (r : Relay) : R r (tellAll remove n r) := by
  apply h.foldl
  intro r s
  have hcancels := h.trans (h.tells r s.tag n) (h.foldl h.cancel s.cancels _)
  unfold tell
  cases s.removes with
  | none => exact hcancels
  | some id => exact h.trans hcancels (hremove id _)

theorem removeWithin (h : Telling R) (depth : Nat) (id : ConnectionId) (r : Relay) :
    R r (removeWithin depth id r) := by
  induction depth generalizing id r with
  | zero => exact h.refl r
  | succ depth ih =>
    unfold Relay.removeWithin
    split
    · rename_i hlisted
      exact h.trans (h.delist r id hlisted) (h.tellAll (fun id r => ih id r) _ _)
    · exact h.refl r

theorem remove (h : Telling R) (id : ConnectionId) (r : Relay) : R r (remove id r) :=
  h.removeWithin r.registry.count id r

end Telling

/-- What holds between before and after if it does so for each part of the work. -/
structure Kept (R : Relay → Relay → Prop) : Prop extends Telling R where
  enter : ∀ r e, R r (r.enter e)
  tells := fun r _ _ => enter r _
  subscribe : ∀ r s, R r (r.updateRegistry (·.subscribe s))
  forget : ∀ r id, R r (r.forget id)
  delistAll : ∀ r, R r (r.updateRegistry (·.delistAll))

namespace Kept
variable {R : Relay → Relay → Prop}

theorem clear (h : Kept R) (r : Relay) : R r r.clear := by
  have hforget := h.foldl h.forget
    (r.updateRegistry (·.delistAll)).registry.retained.ids (r.updateRegistry (·.delistAll))
  exact h.trans (h.delistAll r) (h.trans hforget (h.tellAll h.remove 0 _))

theorem perform (h : Kept R) (r : Relay) {t : Task} (ht : adds? t = none) :
    R r (r.perform t) := by
  have hif : ∀ (b : Bool) {s}, R r s → R r (if b then s else r) := by
    intro b s hs
    cases b with
    | true => exact hs
    | false => exact h.refl r
  cases t with
  | add m request k => cases ht
  | remove m id => exact hif _ (h.remove id r)
  | close m => exact hif _ (h.clear r)
  | subscribe m s => exact hif _ (h.subscribe r s)
  | unsubscribe m id => exact hif _ (h.unsubscribe r id)
  | sourceClosed m id => exact hif _ (h.remove id r)
  | cursorLeft m id => exact hif _ (h.forget r id)
  | windowElapsed m id => exact hif _ (h.forget r id)
  | announce => exact h.enter r _
  | enter e => exact h.enter r e

end Kept

/-- The thread of a manager that has not been stopped gets on. -/
def Progresses (r s : Relay) : Prop :=
  r.agenda.stopped = false → ∃ ps, Works r ps s

/-- Nobody holds a source for what stands in the journal, or for a subscription. -/
theorem progresses_of_eq {r s : Relay} (hagenda : s.agenda = r.agenda)
    (hlisteners : s.listeners = r.listeners) (hnext : s.nextSource = r.nextSource)
    (hchannels : s.channels = r.channels) (hmanager : s.manager = r.manager) : Progresses r s := by
  intro _
  have hregistry : s.registry = r.registry := by simp only [registry, hmanager]
  refine ⟨[], ?_⟩
  apply works_of_eq hagenda hlisteners hnext hchannels (by rw [hmanager]) (by rw [hregistry])
  · rw [hregistry]
    exact fun _ _ hn => hn
  · rw [hregistry]
    exact fun _ _ hk => hk

theorem progresses_updateRegistry (r : Relay) {f : Registry → Registry}
    (hlast : ∀ g, (f g).lastId = g.lastId)
    (hconnections : ∀ g id n, (f g).connections.get? id = some n → g.connections.get? id = some n)
    (hretained : ∀ g, (f g).retained = g.retained) : Progresses r (r.updateRegistry f) := by
  refine fun _ => ⟨[], works_updateRegistry r hlast hconnections fun g id k hk => ?_⟩
  rwa [hretained] at hk

theorem Progresses.trans {r s t : Relay} (h : Progresses r s) (h' : Progresses s t) :
    Progresses r t := by
  intro hr
  obtain ⟨ps, hps⟩ := h hr
  obtain ⟨qs, hqs⟩ := h' (hps.running.trans hr)
  exact ⟨ps ++ qs, hps.trans hqs⟩

theorem progresses_forget (r : Relay) (id : ConnectionId) : Progresses r (r.forget id) :=
  fun h => works_forget h id

theorem progresses_post (r : Relay) : Progresses r (r.post .announce) :=
  fun h => ⟨[.announced], works_post h⟩

theorem get?_delist {g : Registry} {id i : ConnectionId} {n : Connection}
    (h : (g.delist id).connections.get? i = some n) : i ≠ id ∧ g.connections.get? i = some n := by
  simpa only [Registry.delist, Roster.get?_erase, Option.ite_none_left_eq_some] using h

theorem progresses_delist (r : Relay) (id : ConnectionId) :
    Progresses r (r.updateRegistry (·.delist id)) :=
  progresses_updateRegistry r (fun _ => rfl) (fun _ _ _ hn => (get?_delist hn).2) fun _ => rfl

theorem kept_progresses : Kept Progresses where
  refl := fun r _ => ⟨[], works_refl r⟩
  trans := Progresses.trans
  enter := fun _ _ => progresses_of_eq rfl rfl rfl rfl rfl
  renounce := fun _ _ => progresses_of_eq rfl rfl rfl rfl rfl
  subscribe := fun r _ =>
    progresses_updateRegistry r (fun _ => rfl) (fun _ _ _ hn => hn) fun _ => rfl
  unsubscribe := fun r _ =>
    progresses_updateRegistry r (fun _ => rfl) (fun _ _ _ hn => hn) fun _ => rfl
  forget := progresses_forget
  delistAll := by
    intro r
    apply progresses_updateRegistry
    · exact fun _ => rfl
    · intro g id n hn
      cases hn
    · exact fun _ => rfl
  delist := fun r id _ =>
    (progresses_delist r id).trans
      ((progresses_forget _ id).trans (progresses_post _))

/-! ## What a task settles -/

theorem manager_reap (r : Relay) (k : SourceId) : (r.reap k).manager = r.manager := by
  rcases r.reap_cases k with ⟨he, _⟩ | ⟨_, _, _, he⟩ <;> rw [he]

theorem nextSource_reap (r : Relay) (k : SourceId) : (r.reap k).nextSource = r.nextSource := by
  rcases r.reap_cases k with ⟨he, _⟩ | ⟨_, _, _, he⟩ <;> rw [he]

theorem journal_reap (r : Relay) (k : SourceId) : (r.reap k).journal = r.journal := by
  rcases r.reap_cases k with ⟨he, _⟩ | ⟨_, _, _, he⟩ <;> rw [he]

theorem journal_forget (r : Relay) (id : ConnectionId) : (r.forget id).journal = r.journal := by
  unfold forget
  split
  · rfl
  · exact journal_reap _ _

theorem nextSource_forget (r : Relay) (id : ConnectionId) :
    (r.forget id).nextSource = r.nextSource := by
  unfold forget
  split
  · rfl
  · exact nextSource_reap _ _

theorem registry_reap (r : Relay) (k : SourceId) : (r.reap k).registry = r.registry := by
  rw [registry, manager_reap, ← registry]

theorem registry_forget (r : Relay) (id : ConnectionId) :
    (r.forget id).registry = r.registry.forget id := by
  unfold forget
  cases hk : r.registry.retained.get? id with
  | none => simp only [Registry.forget, Roster.erase_of_fresh hk]
  | some k =>
    cases hm : r.manager with
    | none =>
      rw [registry_of_none hm] at hk
      cases hk
    | some m =>
      dsimp only
      rw [registry_reap, registry_updateRegistry hm]

theorem retained_forget (r : Relay) (id : ConnectionId) :
    (r.forget id).registry.retained.get? id = none := by
  rw [registry_forget, Registry.forget, Roster.get?_erase, if_pos rfl]

end Relay
end MediaRelay
