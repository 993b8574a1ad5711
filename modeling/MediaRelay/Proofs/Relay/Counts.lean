import MediaRelay.Proofs.Relay.Turns

/-! # What subscribers are told

Subscribers that ask for nothing when they are told of a number of connections leave everything as
it is. So whoever is subscribed is told, once and in order, the size of the table after every task
that the thread performs on it, and the table has that size when it is told.
-/
namespace MediaRelay

/-- A subscriber that asks for nothing when told. -/
structure Subscriber.Quiet (s : Subscriber) : Prop where
  cancels : s.cancels = []
  removes : s.removes = none

/-- What the subscribers with this tag have been told, and how many connections they have seen. -/
def toldTo (tag : String) (journal : List Entry) : List (Nat × Nat) :=
  journal.filterMap fun
    | .count t told seen => if t = tag then some (told, seen) else none
    | _ => none

/-- Subscribers ask for nothing when told, and are told only of the table. -/
def Task.Calm : Task → Prop
  | .subscribe _ s => s.Quiet
  | .enter (.count _ _ _) => False
  | _ => True

def Task.subscribes (tag : String) : Task → Bool
  | .subscribe _ s => s.tag = tag
  | _ => false

def Deed.subscribes (tag : String) : Deed → Bool
  | .move (.subscribe s) => s.tag = tag
  | _ => false

@[simp] theorem toldTo_append (tag : String) (journal more : List Entry) :
    toldTo tag (journal ++ more) = toldTo tag journal ++ toldTo tag more :=
  List.filterMap_append

theorem Task.calm_of_hangs {t : Task} (h : t.hangs = true) : t.Calm := by
  cases t with
  | enter e =>
    cases e with
    | closed tag => trivial
    | detached tag => trivial
    | _ => cases h
  | subscribe m s => cases h
  | _ => trivial

theorem Task.not_subscribes_of_hangs {t : Task} (h : t.hangs = true) (tag : String) :
    t.subscribes tag = false := by
  cases t with
  | subscribe m s => cases h
  | _ => rfl

theorem calm_of_asks {d : Deed} (hd : ∀ s, d = .move (.subscribe s) → s.Quiet) {t : Task}
    (h : d.Asks t) : t.Calm := by
  cases h with
  | subscribe => exact hd _ rfl
  | _ => trivial

theorem not_subscribes_of_asks {d : Deed} {tag : String} (hd : d.subscribes tag = false) {t : Task}
    (h : d.Asks t) : t.subscribes tag = false := by
  cases h with
  | subscribe => exact hd
  | _ => rfl

/-! ## Subscriptions under numbers -/

namespace Registry
variable {g : Registry} {tag : String} {number : Option SubscriberId}

theorem count_eq_length (g : Registry) : g.count = g.ids.length := (List.length_map _).symm

/-- Whoever has this tag is subscribed under this number, if at all. -/
structure Numbered (tag : String) (number : Option SubscriberId) (g : Registry) : Prop where
  quiet : ∀ s ∈ g.subscribers.values, s.Quiet
  issued : ∀ id ∈ g.subscribers.ids, id < g.nextSubscriber
  alone : ∀ id s, g.subscribers.get? id = some s → (s.tag = tag ↔ number = some id)
  present : ∀ id, number = some id → ∃ s, g.subscribers.get? id = some s

namespace Numbered

theorem of_eq (h : g.Numbered tag number) {f : Registry}
    (hsubscribers : f.subscribers = g.subscribers)
    (hnext : f.nextSubscriber = g.nextSubscriber) : f.Numbered tag number := by
  obtain ⟨hquiet, hissued, halone, hpresent⟩ := h
  rw [← hsubscribers] at hquiet hissued halone hpresent
  rw [← hnext] at hissued
  exact ⟨hquiet, hissued, halone, hpresent⟩

theorem subscribe (h : g.Numbered tag number) {s : Subscriber} (hquiet : s.Quiet)
    (hs : s.tag = tag → number = none) :
    (g.subscribe s).Numbered tag (if s.tag = tag then some g.nextSubscriber else number) := by
  have hget : ∀ id, (g.subscribe s).subscribers.get? id =
      if id = g.nextSubscriber then some s else g.subscribers.get? id :=
    fun id => g.subscribers.get?_put g.nextSubscriber id s
  have hold : ∀ id t, g.subscribers.get? id = some t → id < g.nextSubscriber :=
    fun id t ht => h.issued id ((g.subscribers.mem_ids_iff id).mpr (by simp [ht]))
  refine ⟨?_, ?_, ?_, ?_⟩
  · intro t ht
    obtain ⟨id, hid⟩ := ((g.subscribe s).subscribers.mem_values_iff t).mp ht
    rw [hget] at hid
    split at hid
    · exact Option.some.inj hid ▸ hquiet
    · exact h.quiet t ((g.subscribers.mem_values_iff t).mpr ⟨id, hid⟩)
  · intro id hid
    simp only [Registry.subscribe, Roster.ids_put, List.mem_append, List.mem_filter,
      List.mem_singleton] at hid ⊢
    rcases hid with ⟨hid, _⟩ | rfl
    · exact Nat.lt_succ_of_lt (h.issued id hid)
    · exact Nat.lt_succ_self _
  · intro id t ht
    rw [hget] at ht
    split at ht
    · rename_i hid
      cases ht
      subst hid
      constructor
      · exact fun htag => if_pos htag
      · intro hnumber
        by_cases htag : s.tag = tag
        · exact htag
        · rw [if_neg htag] at hnumber
          obtain ⟨u, hu⟩ := h.present _ hnumber
          exact absurd (hold _ u hu) (Nat.lt_irrefl _)
    · rename_i hid
      rw [h.alone id t ht]
      by_cases htag : s.tag = tag
      · rw [if_pos htag, hs htag, Option.some.injEq]
        exact ⟨fun hnone => (Option.some_ne_none _ hnone.symm).elim, fun he => absurd he.symm hid⟩
      · rw [if_neg htag]
  · intro id hid
    rw [hget]
    split at hid
    · exact ⟨s, if_pos (Option.some.inj hid).symm⟩
    · obtain ⟨t, ht⟩ := h.present id hid
      exact ⟨t, (if_neg (Nat.ne_of_lt (hold id t ht))).trans ht⟩

theorem unsubscribe (h : g.Numbered tag number) (id : SubscriberId) :
    (g.unsubscribe id).Numbered tag (if number = some id then none else number) := by
  have hget : ∀ i t, (g.unsubscribe id).subscribers.get? i = some t →
      i ≠ id ∧ g.subscribers.get? i = some t := by
    intro i t ht
    simpa only [Registry.unsubscribe, Roster.get?_erase, Option.ite_none_left_eq_some] using ht
  refine ⟨?_, ?_, ?_, ?_⟩
  · intro t ht
    obtain ⟨i, hi⟩ := ((g.unsubscribe id).subscribers.mem_values_iff t).mp ht
    exact h.quiet t ((g.subscribers.mem_values_iff t).mpr ⟨i, (hget i t hi).2⟩)
  · intro i hi
    simp only [Registry.unsubscribe, Roster.ids_erase, List.mem_filter] at hi
    exact h.issued i hi.1
  · intro i t ht
    obtain ⟨hne, hold⟩ := hget i t ht
    rw [h.alone i t hold]
    split
    · rename_i hnumber
      rw [hnumber, Option.some.injEq]
      exact ⟨fun he => absurd he.symm hne, fun hnone => (Option.some_ne_none _ hnone.symm).elim⟩
    · exact Iff.rfl
  · intro i hi
    split at hi
    · cases hi
    · rename_i hnumber
      obtain ⟨t, ht⟩ := h.present i hi
      have hne : i ≠ id := fun he => hnumber (he ▸ hi)
      refine ⟨t, ?_⟩
      rw [Registry.unsubscribe, Roster.get?_erase, if_neg hne, ht]

theorem toldTo_values (h : g.Numbered tag number) (n : Nat) :
    toldTo tag (g.subscribers.values.map fun s => .count s.tag n n) =
      if number.isSome then [(n, n)] else [] := by
  have hothers : ∀ es : List (SubscriberId × Subscriber), (∀ e ∈ es, e.2.tag ≠ tag) →
      toldTo tag ((es.map Prod.snd).map fun s => .count s.tag n n) = [] := by
    intro es hes
    simpa [toldTo, List.filterMap_eq_nil_iff] using fun id s hs => hes (id, s) hs
  cases hnumber : number with
  | none =>
    refine hothers g.subscribers.entries fun e he htag => ?_
    have hid := (g.subscribers.get?_eq_some_iff e.1 e.2).mpr he
    have hsome := (h.alone e.1 e.2 hid).mp htag
    rw [hnumber] at hsome
    cases hsome
  | some id =>
    obtain ⟨s, hs⟩ := h.present id hnumber
    obtain ⟨front, back, hentries, hrest⟩ := Roster.exists_entries hs
    have hnone : ∀ e ∈ front ++ back, e.2.tag ≠ tag := by
      intro e he htag
      have hmem : e ∈ g.subscribers.entries := by
        rw [hentries]
        rcases List.mem_append.mp he with he | he
        · exact List.mem_append_left _ he
        · exact List.mem_append_right _ (List.mem_cons_of_mem _ he)
      have hid := (g.subscribers.get?_eq_some_iff e.1 e.2).mpr hmem
      have hsome := (h.alone e.1 e.2 hid).mp htag
      rw [hnumber] at hsome
      exact hrest e he (Option.some.inj hsome).symm
    have hfront := hothers front fun e he => hnone e (List.mem_append_left _ he)
    have hback := hothers back fun e he => hnone e (List.mem_append_right _ he)
    have hone : toldTo tag [.count s.tag n n] = [(n, n)] := by
      simp [toldTo, (h.alone id s hs).mpr hnumber]
    rw [Roster.values, hentries, List.map_append, List.map_cons, List.map_append, List.map_cons,
      toldTo_append, ← List.singleton_append, toldTo_append, hfront, hback, hone]
    rfl

end Numbered
end Registry

namespace Relay
variable {r s t : Relay} {d : Deed} {tag : String} {number : Option SubscriberId}

/-! ## One task -/

/-- The size of the table after a task that is performed on it. -/
def sizeAfter? (r : Relay) : Task → Option Nat
  | .add m _ _ => if r.isManagedBy m then some (r.registry.count + 1) else none
  | .remove m id =>
    if r.isManagedBy m ∧ id ∈ r.registry.ids then some (r.registry.count - 1) else none
  | .sourceClosed m id =>
    if r.isManagedBy m ∧ id ∈ r.registry.ids then some (r.registry.count - 1) else none
  | .close m => if r.isManagedBy m then some 0 else none
  | _ => none

/-- The registry with those who are subscribed after a task. -/
def resubscribed (r : Relay) : Task → Registry
  | .subscribe m s => if r.isManagedBy m then r.registry.subscribe s else r.registry
  | .unsubscribe m id => if r.isManagedBy m then r.registry.unsubscribe id else r.registry
  | _ => r.registry

/-- The same are subscribed, and each has been told this number, seeing as many. -/
structure Told (r : Relay) (n : Nat) (s : Relay) : Prop where
  subscribers : s.registry.subscribers = r.registry.subscribers
  nextSubscriber : s.registry.nextSubscriber = r.registry.nextSubscriber
  count : s.registry.count = n
  journal : s.journal = r.journal ++ r.registry.subscribers.values.map fun s => .count s.tag n n

theorem tellAll_of_quiet (hr : ∀ s ∈ r.registry.subscribers.values, s.Quiet)
    (remove : ConnectionId → Relay → Relay) (n : Nat) :
    tellAll remove n r =
      { r with
        journal := r.journal ++
          r.registry.subscribers.values.map fun s => .count s.tag n r.registry.count } := by
  unfold tellAll
  generalize r.registry.subscribers.values = told at hr
  induction told generalizing r with
  | nil => simp
  | cons s rest ih =>
    obtain ⟨hs, hrest⟩ := List.forall_mem_cons.mp hr
    have htell : tell remove n r s = r.enter (.count s.tag n r.registry.count) := by
      simp [tell, hs.cancels, hs.removes]
    rw [List.foldl_cons, htell, ih hrest, List.map_cons]
    simp only [enter, List.append_assoc, List.singleton_append]
    rfl

theorem told_tellAll (hr : ∀ s ∈ r.registry.subscribers.values, s.Quiet)
    (remove : ConnectionId → Relay → Relay)
    (hsubscribers : s.registry.subscribers = r.registry.subscribers)
    (hnext : s.registry.nextSubscriber = r.registry.nextSubscriber)
    (hjournal : s.journal = r.journal) :
    Told r s.registry.count (tellAll remove s.registry.count s) := by
  rw [tellAll_of_quiet (hsubscribers ▸ hr)]
  refine ⟨hsubscribers, hnext, rfl, ?_⟩
  simp only [hjournal, hsubscribers]

theorem told_remove (hr : ∀ s ∈ r.registry.subscribers.values, s.Quiet) {id : ConnectionId}
    (hid : id ∈ r.registry.ids) : Told r (r.registry.count - 1) (remove id r) := by
  have hcontains : r.registry.connections.contains id = true :=
    (r.registry.connections.mem_ids_iff id).mp hid
  obtain ⟨m, hm⟩ := exists_manager_of_listed hcontains
  let base := ((r.updateRegistry (·.delist id)).forget id).post .announce
  have hbase : base.registry = (r.registry.delist id).forget id := registry_delisted hcontains
  have hless : base.registry.count + 1 = r.registry.count := by
    obtain ⟨n, hn⟩ := Option.isSome_iff_exists.mp hcontains
    rw [hbase]
    exact Roster.size_erase hn
  have hsize : (r.updateRegistry (·.delist id)).registry.count = base.registry.count := by
    rw [registry_updateRegistry hm, hbase]
    rfl
  unfold remove
  rw [← hless, Nat.add_sub_cancel]
  unfold removeWithin
  rw [if_pos hcontains]
  dsimp only
  rw [hsize]
  exact told_tellAll hr _ (by rw [hbase]; rfl) (by rw [hbase]; rfl) (journal_forget _ id)

theorem told_add (hr : ∀ s ∈ r.registry.subscribers.values, s.Quiet) {m : Manager}
    (hm : r.manager = some m) (request : Request) (k : SourceId) :
    Told r (r.registry.count + 1) (add m request k r) := by
  have hlisting := registry_listing hm request k
  have hcount : (listing m request k r).registry.count = r.registry.count + 1 := by
    have hids : (r.registry.add request k).ids = r.registry.ids ++ [r.registry.lastId + 1] :=
      congrArg Table.ids (r.registry.table_add request k)
    rw [hlisting, Registry.count_eq_length, hids, List.length_append, Registry.count_eq_length]
    rfl
  let base := (listing m request k r).post .announce
  have hbase : base.registry = r.registry.add request k := hlisting
  have htold := told_tellAll hr remove (s := base) (by rw [hbase]; rfl) (by rw [hbase]; rfl) rfl
  rw [add_eq, ← hcount]
  exact htold

theorem told_clear (hr : ∀ s ∈ r.registry.subscribers.values, s.Quiet) : Told r 0 r.clear := by
  obtain ⟨retained, hforgotten, _⟩ :=
    Registry.foldl_forget r.registry.retained.ids r.registry.delistAll
  have hcleared := r.registry_cleared.trans hforgotten
  have hcount : r.cleared.registry.count = 0 := by
    rw [hcleared]
    rfl
  have hjournal : r.cleared.journal = r.journal := (foldl_forget _ _).2.2
  have htold := told_tellAll hr remove (by rw [hcleared]; rfl) (by rw [hcleared]; rfl) hjournal
  rw [hcount] at htold
  exact htold

theorem told_perform (hr : ∀ s ∈ r.registry.subscribers.values, s.Quiet) {t : Task} {n : Nat}
    (h : r.sizeAfter? t = some n) : Told r n (r.perform t) := by
  have hremove : ∀ m id,
      (if r.isManagedBy m ∧ id ∈ r.registry.ids then some (r.registry.count - 1) else none) =
        some n → Told r n (if r.isManagedBy m then remove id r else r) := by
    intro m id hn
    split at hn
    · rename_i hlisted
      cases hn
      rw [if_pos hlisted.1]
      exact told_remove hr hlisted.2
    · cases hn
  cases t with
  | add m request k =>
    simp only [sizeAfter?, isManagedBy] at h
    cases hm : r.manager with
    | none => simp [hm] at h
    | some manager =>
      simp only [hm, Option.any_some, decide_eq_true_eq, Option.ite_none_right_eq_some] at h
      obtain ⟨hid, hn⟩ := h
      simp only [perform, hm, hid, if_true]
      cases hn
      exact told_add hr hm request k
  | remove m id => exact hremove m id h
  | sourceClosed m id => exact hremove m id h
  | close m =>
    simp only [sizeAfter?, Option.ite_none_right_eq_some] at h
    obtain ⟨hm, hn⟩ := h
    simp only [perform, hm, if_true]
    cases hn
    exact told_clear hr
  | _ => cases h

/-- The subscribers are those of a registry, and one of them has been told some numbers. -/
structure Leaves (tag : String) (r : Relay) (g : Registry) (numbers : List Nat) (s : Relay) :
    Prop where
  subscribers : s.registry.subscribers = g.subscribers
  nextSubscriber : s.registry.nextSubscriber = g.nextSubscriber
  journal : toldTo tag s.journal = toldTo tag r.journal ++ numbers.map fun n => (n, n)

theorem untold_of_eq (tag : String) (h : s = r) : Leaves tag r r.registry [] s := by
  subst h
  exact ⟨rfl, rfl, (List.append_nil _).symm⟩

theorem untold_forget (tag : String) (r : Relay) (id : ConnectionId) :
    Leaves tag r r.registry [] (r.forget id) := by
  refine ⟨?_, ?_, ?_⟩
  · rw [registry_forget]
    rfl
  · rw [registry_forget]
    rfl
  · rw [journal_forget, List.map_nil, List.append_nil]

theorem untold_updateRegistry (tag : String) {m : ManagerId} (hm : r.isManagedBy m = true)
    (f : Registry → Registry) : Leaves tag r (f r.registry) [] (r.updateRegistry f) := by
  obtain ⟨manager, hmanager, _⟩ := exists_manager_of_managed hm
  have hregistry := registry_updateRegistry hmanager f
  exact ⟨by rw [hregistry], by rw [hregistry], (List.append_nil _).symm⟩

theorem untold_remove (tag : String) {m : ManagerId} {id : ConnectionId}
    (h : ¬(r.isManagedBy m = true ∧ id ∈ r.registry.ids)) :
    Leaves tag r r.registry [] (if r.isManagedBy m then remove id r else r) := by
  apply untold_of_eq
  split
  · rename_i hm
    exact remove_of_unlisted fun hid => h ⟨hm, hid⟩
  · rfl

theorem untold_perform (tag : String) {t : Task} (h : r.sizeAfter? t = none) (ht : t.Calm) :
    Leaves tag r (r.resubscribed t) [] (r.perform t) := by
  have hif : ∀ (m : ManagerId) {s}, Leaves tag r r.registry [] s →
      Leaves tag r r.registry [] (if r.isManagedBy m then s else r) := by
    intro m s hs
    split
    · exact hs
    · exact untold_of_eq tag rfl
  have hunlisted : ∀ {b : Prop} [Decidable b] {n : Nat}, (if b then some n else none) = none → ¬b :=
    fun hn hb => by simp [hb] at hn
  cases t with
  | add m request k =>
    apply untold_of_eq
    cases hm : r.manager with
    | none => simp only [perform, hm]
    | some manager =>
      have hid : ¬manager.id = m := by simpa [sizeAfter?, isManagedBy, hm] using h
      simp only [perform, hm, hid, if_false]
  | remove m id => exact untold_remove tag (hunlisted h)
  | sourceClosed m id => exact untold_remove tag (hunlisted h)
  | close m => exact untold_of_eq tag (if_neg (hunlisted h))
  | subscribe m s =>
    simp only [perform, resubscribed]
    split
    · rename_i hm
      exact untold_updateRegistry tag hm (·.subscribe s)
    · exact untold_of_eq tag rfl
  | unsubscribe m id =>
    simp only [perform, resubscribed]
    split
    · rename_i hm
      exact untold_updateRegistry tag hm (·.unsubscribe id)
    · exact untold_of_eq tag rfl
  | cursorLeft m id => exact hif m (untold_forget tag r id)
  | windowElapsed m id => exact hif m (untold_forget tag r id)
  | announce => exact ⟨rfl, rfl, by simp [perform, enter, toldTo]⟩
  | enter e =>
    refine ⟨rfl, rfl, ?_⟩
    cases e with
    | count t told seen => exact ht.elim
    | _ => simp [perform, enter, toldTo]

/-- What a task has a subscriber told: the size of the table after it, if it is performed on the
table and the subscriber is subscribed. -/
def hears (r : Relay) (number : Option SubscriberId) (t : Task) : List Nat :=
  if number.isSome then (r.sizeAfter? t).toList else []

theorem heard_perform (hr : r.registry.Numbered tag number) {t : Task} (ht : t.Calm) :
    Leaves tag r (r.resubscribed t) (r.hears number t) (r.perform t) := by
  cases hn : r.sizeAfter? t with
  | none =>
    have hnone : r.hears number t = [] := by simp [hears, hn]
    rw [hnone]
    exact untold_perform tag hn ht
  | some n =>
    have htold := told_perform hr.quiet hn
    have hsame : r.resubscribed t = r.registry := by
      cases t with
      | subscribe m s => cases hn
      | unsubscribe m id => cases hn
      | _ => rfl
    rw [hsame]
    refine ⟨htold.subscribers, htold.nextSubscriber, ?_⟩
    rw [htold.journal, toldTo_append, hr.toldTo_values]
    cases number <;> simp [hears, hn]

def renumbered (tag : String) (r : Relay) (number : Option SubscriberId) :
    Task → Option SubscriberId
  | .subscribe m s =>
    if r.isManagedBy m ∧ s.tag = tag then some r.registry.nextSubscriber else number
  | .unsubscribe m id => if r.isManagedBy m ∧ number = some id then none else number
  | _ => number

theorem numbered_resubscribed (hr : r.registry.Numbered tag number) {t : Task} (ht : t.Calm)
    (hfree : t.subscribes tag = true → number = none) :
    (r.resubscribed t).Numbered tag (r.renumbered tag number t) := by
  cases t with
  | subscribe m s =>
    simp only [resubscribed, renumbered]
    cases hm : r.isManagedBy m with
    | true =>
      simp only [true_and, if_true]
      exact hr.subscribe ht fun htag => hfree (decide_eq_true htag)
    | false =>
      simp only [Bool.false_eq_true, false_and, if_false]
      exact hr
  | unsubscribe m id =>
    simp only [resubscribed, renumbered]
    cases hm : r.isManagedBy m with
    | true =>
      simp only [true_and, if_true]
      exact hr.unsubscribe id
    | false =>
      simp only [Bool.false_eq_true, false_and, if_false]
      exact hr
  | _ => exact hr

theorem length_renumbered_le (r : Relay) (number : Option SubscriberId) {t : Task}
    (ht : t.subscribes tag = false) :
    (r.renumbered tag number t).toList.length ≤ number.toList.length := by
  cases t with
  | subscribe m s =>
    have htag : ¬s.tag = tag := of_decide_eq_false ht
    simp [renumbered, htag]
  | unsubscribe m id =>
    simp only [renumbered]
    split
    · exact Nat.zero_le _
    · exact Nat.le_refl _
  | _ => exact Nat.le_refl _

/-! ## From one task to all -/

/-- The number under which a subscriber is subscribed after a deed, if at all. -/
def numberAfter (tag : String) (r : Relay) (number : Option SubscriberId) (d : Deed) :
    Option SubscriberId :=
  match r.served? d, d with
  | some (t, _), _ => r.renumbered tag number t
  | none, .strike id => if r.agenda.stopped ∧ number = some id then none else number
  | none, _ => number

/-- The sizes of the table after all tasks that are performed on it while a subscriber is
subscribed, from when its subscription is performed to when its cancellation is. -/
def sizesWhile (tag : String) : Option SubscriberId → Relay → List Deed → List Nat
  | _, _, [] => []
  | number, r, d :: rest =>
    ((r.served? d).elim [] fun served => r.hears number served.1) ++
      sizesWhile tag (r.numberAfter tag number d) (r.enact d) rest

/-- What holds of a relay whose subscribers ask for nothing when told, and with what is still to be
done there is at most one subscriber with this tag. -/
structure Listening (tag : String) (number : Option SubscriberId) (r : Relay)
    (rest : List Deed) : Prop where
  managed : r.manager.isSome = true
  hung : r.Hung
  numbered : r.registry.Numbered tag number
  queued : ∀ t ∈ r.agenda.queue, t.Calm
  quiet : ∀ s, .move (.subscribe s) ∈ rest → s.Quiet
  once : number.toList.length + r.agenda.queue.countP (Task.subscribes tag) +
    rest.countP (Deed.subscribes tag) ≤ 1

theorem countP_enact (tag : String) (hr : r.Hung) (hserved : r.served? d = none)
    (hd : Deed.overrides d = false) :
    (r.enact d).agenda.queue.countP (Task.subscribes tag) ≤
      r.agenda.queue.countP (Task.subscribes tag) + if Deed.subscribes tag d then 1 else 0 := by
  cases hsub : Deed.subscribes tag d with
  | false =>
    obtain ⟨ts, hts, hkind⟩ := ((aside_enact hserved hd).appends hr).queue
    have hnone : ts.countP (Task.subscribes tag) = 0 := by
      refine List.countP_eq_zero.mpr fun t ht => Bool.eq_false_iff.mp ?_
      rcases hkind t ht with hhangs | hasks
      · exact Task.not_subscribes_of_hangs hhangs tag
      · exact not_subscribes_of_asks hsub hasks
    rw [hts, List.countP_append, hnone]
    exact Nat.le_refl _
  | true =>
    cases d with
    | move v =>
      cases v with
      | subscribe s =>
        simp only [enact, make, ask]
        split
        · exact Nat.le_succ _
        · simp only [post, Agenda.post]
          split
          · exact Nat.le_succ _
          · rw [List.countP_append]
            exact Nat.add_le_add_left List.countP_le_length _
      | _ => cases hsub
    | _ => cases hsub

namespace Listening
variable {rest : List Deed}

theorem managed_enact (h : Listening tag number r (d :: rest)) :
    (r.enact d).manager.isSome = true := by
  obtain ⟨_, hturned, _⟩ := r.turned_enact d
  have hsame := congrArg Option.isSome hturned.manager
  rw [Option.isSome_map, Option.isSome_map] at hsame
  exact hsame.trans h.managed

theorem once_of_taken (h : Listening tag number r (d :: rest)) {t : Task} {a : Agenda Task}
    (htaken : r.Taken t a) :
    (r.renumbered tag number t).toList.length + a.queue.countP (Task.subscribes tag) +
        rest.countP (Deed.subscribes tag) ≤ 1 ∧
      (t.subscribes tag = true → number = none) := by
  have hle := h.once
  rw [List.countP_cons] at hle
  cases hsub : t.subscribes tag with
  | false =>
    have hnumber := r.length_renumbered_le number hsub
    have hcount : a.queue.countP (Task.subscribes tag) ≤
        r.agenda.queue.countP (Task.subscribes tag) := by
      cases htaken with
      | queued hq =>
        rw [hq, List.countP_cons]
        exact Nat.le_add_right _ _
      | due _ _ hq => exact Nat.le_of_eq (by rw [hq])
    exact ⟨by omega, fun hyes => by cases hyes⟩
  | true =>
    have hcount : r.agenda.queue.countP (Task.subscribes tag) =
        a.queue.countP (Task.subscribes tag) + 1 := by
      cases htaken with
      | queued hq =>
        rw [hq]
        exact List.countP_cons_of_pos hsub
      | due hu ht =>
        have hnot := Task.not_subscribes_of_hangs (h.hung.timers _ hu) tag
        rw [ht, hsub] at hnot
        cases hnot
    have hnone : number.toList.length = 0 := by omega
    have hsome : (r.renumbered tag number t).toList.length ≤ 1 := by
      cases r.renumbered tag number t <;> simp
    refine ⟨by omega, fun _ => ?_⟩
    cases number with
    | none => rfl
    | some id => cases hnone

theorem serve (h : Listening tag number r (d :: rest)) {t : Task} {a : Agenda Task}
    (hserved : r.served? d = some (t, a)) :
    Listening tag (r.renumbered tag number t) (r.enact d) rest ∧
      toldTo tag (r.enact d).journal =
        toldTo tag r.journal ++ (r.hears number t).map fun n => (n, n) := by
  have htaken := taken_of_served hserved
  have hcalm : t.Calm := by
    rcases htaken.mem_or_hangs h.hung with hqueued | hhangs
    · exact h.queued t hqueued
    · exact Task.calm_of_hangs hhangs
  obtain ⟨hle, hfree⟩ := h.once_of_taken htaken
  let taken : Relay := { r with agenda := a }
  obtain ⟨hsubscribers, hnext, hjournal⟩ := heard_perform (r := taken) h.numbered hcalm
  obtain ⟨hung, _, ts, hts, hkind⟩ := announces_perform taken t (htaken.hung h.hung)
  have hmanaged := h.managed_enact
  rw [enact_of_served hserved] at hmanaged ⊢
  refine ⟨⟨hmanaged, hung, ?_, ?_, ?_, ?_⟩, hjournal⟩
  · exact (numbered_resubscribed h.numbered hcalm hfree).of_eq hsubscribers hnext
  · rw [hts]
    intro u hu
    rcases List.mem_append.mp hu with hold | hnew
    · exact h.queued u (htaken.queue hold)
    · rcases hkind u hnew with hhangs | rfl
      · exact Task.calm_of_hangs hhangs
      · trivial
  · exact fun s hs => h.quiet s (List.mem_cons_of_mem _ hs)
  · have hnone : ts.countP (Task.subscribes tag) = 0 := by
      refine List.countP_eq_zero.mpr fun u hu => Bool.eq_false_iff.mp ?_
      rcases hkind u hu with hhangs | rfl
      · exact Task.not_subscribes_of_hangs hhangs tag
      · rfl
    rw [hts, List.countP_append, hnone]
    exact hle

theorem leave_aside (h : Listening tag number r (d :: rest)) (hserved : r.served? d = none)
    (hd : Deed.overrides d = false) :
    Listening tag number (r.enact d) rest ∧ (r.enact d).journal = r.journal := by
  have haside := aside_enact hserved hd
  obtain ⟨hung, _, ts, hts, hkind⟩ := haside.appends h.hung
  have hregistry : (r.enact d).registry = r.registry := by
    rw [registry, registry, haside.manager]
  refine ⟨⟨h.managed_enact, hung, hregistry ▸ h.numbered, ?_, ?_, ?_⟩, haside.journal⟩
  · rw [hts]
    intro u hu
    rcases List.mem_append.mp hu with hold | hnew
    · exact h.queued u hold
    · rcases hkind u hnew with hhangs | hasks
      · exact Task.calm_of_hangs hhangs
      · refine calm_of_asks (fun s hs => h.quiet s ?_) hasks
        rw [hs]
        exact List.mem_cons_self
  · exact fun s hs => h.quiet s (List.mem_cons_of_mem _ hs)
  · have hcount := countP_enact tag h.hung hserved hd
    have hle := h.once
    rw [List.countP_cons] at hle
    omega

theorem override (h : Listening tag number r (d :: rest)) (hd : Deed.overrides d = true) :
    Listening tag (r.numberAfter tag number d) (r.enact d) rest ∧
      (r.enact d).journal = r.journal := by
  have hquiet : ∀ s, .move (.subscribe s) ∈ rest → s.Quiet :=
    fun s hs => h.quiet s (List.mem_cons_of_mem _ hs)
  have hle : number.toList.length + r.agenda.queue.countP (Task.subscribes tag) +
      rest.countP (Deed.subscribes tag) ≤ 1 := by
    have hle := h.once
    rw [List.countP_cons] at hle
    omega
  cases d with
  | stop =>
    refine ⟨⟨h.managed, ⟨h.hung.sources, by simp [enact, Agenda.stop]⟩, h.numbered,
      by simp [enact, Agenda.stop], hquiet, ?_⟩, rfl⟩
    change number.toList.length + 0 + rest.countP (Deed.subscribes tag) ≤ 1
    omega
  | strike id =>
    have hnumber : r.numberAfter tag number (.strike id) =
        if r.agenda.stopped ∧ number = some id then none else number := rfl
    have hmanaged := h.managed_enact
    rw [hnumber]
    simp only [enact] at hmanaged ⊢
    cases hstopped : r.agenda.stopped with
    | false =>
      simp only [Bool.false_eq_true, false_and, if_false, and_true]
      exact ⟨h.managed, h.hung, h.numbered, h.queued, hquiet, hle⟩
    | true =>
      simp only [hstopped, if_true] at hmanaged
      simp only [true_and, if_true]
      obtain ⟨m, hm⟩ := Option.isSome_iff_exists.mp h.managed
      have hregistry := registry_updateRegistry hm (·.unsubscribe id)
      refine ⟨⟨hmanaged, ⟨h.hung.sources, h.hung.timers⟩, ?_, h.queued, hquiet, ?_⟩, rfl⟩
      · rw [hregistry]
        exact h.numbered.unsubscribe id
      · change (if number = some id then none else number).toList.length +
          r.agenda.queue.countP (Task.subscribes tag) + rest.countP (Deed.subscribes tag) ≤ 1
        split
        · exact Nat.le_trans (by simp only [Option.toList_none, List.length_nil]; omega) hle
        · exact hle
  | _ => cases hd

theorem enact (h : Listening tag number r (d :: rest)) :
    Listening tag (r.numberAfter tag number d) (r.enact d) rest ∧
      toldTo tag (r.enact d).journal = toldTo tag r.journal ++
        ((r.served? d).elim [] fun served => r.hears number served.1).map fun n => (n, n) := by
  cases hserved : r.served? d with
  | none =>
    rw [Option.elim_none, List.map_nil, List.append_nil]
    cases hd : Deed.overrides d with
    | false =>
      obtain ⟨hlistening, hjournal⟩ := h.leave_aside hserved hd
      have hnumber : r.numberAfter tag number d = number := by
        unfold numberAfter
        rw [hserved]
        cases d with
        | strike id => cases hd
        | _ => rfl
      rw [hnumber, hjournal]
      exact ⟨hlistening, rfl⟩
    | true =>
      obtain ⟨hlistening, hjournal⟩ := h.override hd
      rw [hjournal]
      exact ⟨hlistening, rfl⟩
  | some served =>
    have hnumber : r.numberAfter tag number d = r.renumbered tag number served.1 := by
      unfold numberAfter
      rw [hserved]
    rw [hnumber, Option.elim_some]
    exact h.serve hserved

/-- A run tells what the table comes to, deed by deed. -/
theorem run {deeds : List Deed} (h : Listening tag number r deeds) :
    toldTo tag (deeds.foldl Relay.enact r).journal =
      toldTo tag r.journal ++ (sizesWhile tag number r deeds).map fun n => (n, n) := by
  induction deeds generalizing r number with
  | nil => simp [sizesWhile]
  | cons d rest ih =>
    obtain ⟨hnext, hjournal⟩ := h.enact
    rw [List.foldl_cons, ih hnext, hjournal, sizesWhile, List.map_append, List.append_assoc]

theorem front {deeds : List Deed} (h : Listening tag number r (deeds ++ rest)) :
    ∃ after, Listening tag after (deeds.foldl Relay.enact r) rest := by
  induction deeds generalizing r number with
  | nil => exact ⟨number, h⟩
  | cons d deeds ih => exact ih h.enact.1

end Listening

theorem listening_start (tag : String) (c : Settings) (catalog : Catalog) {deeds : List Deed}
    (hquiet : ∀ s, .move (.subscribe s) ∈ deeds → s.Quiet)
    (honce : deeds.countP (Deed.subscribes tag) ≤ 1) :
    Listening tag none (runDeeds c catalog []) deeds where
  managed := rfl
  hung := hung_start c catalog
  numbered := by
    constructor
    · intro s hs
      cases hs
    · intro id hid
      cases hid
    · intro id s hs
      cases hs
    · intro id hid
      cases hid
  queued := by
    intro t ht
    cases ht
  quiet := hquiet
  once := by
    change 0 + 0 + _ ≤ 1
    omega

/-- After any deeds, if subscribers ask for nothing when told: what a subscriber has been told are
the sizes of the table after the tasks performed on it, additions, removals of what is listed and
closures, from its subscription to its cancellation, each once and in their order, and each time it
has seen a table of that size. -/
theorem subscriber_is_told_every_size (c : Settings) (catalog : Catalog) (deeds : List Deed)
    (tag : String) (hquiet : ∀ s, .move (.subscribe s) ∈ deeds → s.Quiet)
    (honce : deeds.countP (Deed.subscribes tag) ≤ 1) :
    toldTo tag (runDeeds c catalog deeds).journal =
        (sizesWhile tag none (runDeeds c catalog []) deeds).map (fun n => (n, n)) ∧
      ∀ front d back t a n, deeds = front ++ d :: back →
        (runDeeds c catalog front).served? d = some (t, a) →
          (runDeeds c catalog front).sizeAfter? t = some n →
            (runDeeds c catalog (front ++ [d])).registry.count = n := by
  have hstart := listening_start tag c catalog hquiet honce
  refine ⟨hstart.run, ?_⟩
  rintro front d back t a n rfl hserved hsize
  obtain ⟨number, hfront⟩ := hstart.front
  let taken : Relay := { runDeeds c catalog front with agenda := a }
  have htold := told_perform (r := taken) hfront.numbered.quiet hsize
  have hnext : runDeeds c catalog (front ++ [d]) = taken.perform t := by
    rw [runDeeds, List.foldl_append]
    exact enact_of_served hserved
  rw [hnext]
  exact htold.count

def subscribedForAWhile : List Deed :=
  [.move (.subscribe ⟨"a", [], none⟩), .move .run, .own {} {}, .list ⟨{}, "m", "e", ""⟩ 0,
    .move .run, .move .run, .move .close, .move .run, .move .close, .move .run,
    .move (.unsubscribe 0), .move .run, .list ⟨{}, "m", "e", ""⟩ 0, .move .run, .move .run]

theorem told_of_two_closures :
    (∀ s, .move (.subscribe s) ∈ subscribedForAWhile → s.Quiet) ∧
      subscribedForAWhile.countP (Deed.subscribes "a") ≤ 1 ∧
      sizesWhile "a" none (runDeeds {} {} []) subscribedForAWhile = [1, 0, 0] ∧
      toldTo "a" (runDeeds {} {} subscribedForAWhile).journal = [(1, 1), (0, 0), (0, 0)] ∧
      (runDeeds {} {} subscribedForAWhile).registry.ids = [2] := by
  have hquiet : ∀ s, .move (.subscribe s) ∈ subscribedForAWhile → s.Quiet := by
    intro s hs
    have hone : s = ⟨"a", [], none⟩ := by simpa [subscribedForAWhile] using hs
    rw [hone]
    exact ⟨rfl, rfl⟩
  have honce : subscribedForAWhile.countP (Deed.subscribes "a") ≤ 1 := by decide +kernel
  have hsizes : sizesWhile "a" none (runDeeds {} {} []) subscribedForAWhile = [1, 0, 0] := by
    decide +kernel
  have htold := (subscriber_is_told_every_size {} {} subscribedForAWhile "a" hquiet honce).1
  rw [hsizes] at htold
  exact ⟨hquiet, honce, hsizes, htold, by decide +kernel⟩

end Relay
end MediaRelay
