import MediaRelay.Proofs.Relay.Deeds
import MediaRelay.Proofs.Relay.Draining

/-! # Turns of the connection table

Of the table only the last id issued and the ids in it matter here. Two kinds of turns change them:
the next id enters, or an id that is listed leaves. Everything that the thread does to the table is
a series of such turns, whoever asks for it, so no id comes twice; and the tasks that are left over
for an id that is gone do nothing.
-/
namespace MediaRelay

@[ext] structure Table where
  last : ConnectionId
  ids : List ConnectionId
  ascending : ids.Pairwise (· < ·)
  issued : ∀ id ∈ ids, id ≤ last

inductive Turn where
  | entered (id : ConnectionId)
  | left (id : ConnectionId)

def entries (log : List Turn) : List ConnectionId :=
  log.filterMap fun
    | .entered id => some id
    | .left _ => none

def departures (log : List Turn) : List ConnectionId :=
  log.filterMap fun
    | .entered _ => none
    | .left id => some id

@[simp] theorem entries_entered_cons (id : ConnectionId) (log : List Turn) :
    entries (.entered id :: log) = id :: entries log := rfl

@[simp] theorem entries_left_cons (id : ConnectionId) (log : List Turn) :
    entries (.left id :: log) = entries log := rfl

@[simp] theorem departures_entered_cons (id : ConnectionId) (log : List Turn) :
    departures (.entered id :: log) = departures log := rfl

@[simp] theorem departures_left_cons (id : ConnectionId) (log : List Turn) :
    departures (.left id :: log) = id :: departures log := rfl

@[simp] theorem entries_append (log more : List Turn) :
    entries (log ++ more) = entries log ++ entries more :=
  List.filterMap_append

@[simp] theorem departures_append (log more : List Turn) :
    departures (log ++ more) = departures log ++ departures more :=
  List.filterMap_append

@[simp] theorem entries_left (gone : List ConnectionId) : entries (gone.map .left) = [] := by
  simp [entries]

@[simp] theorem departures_left (gone : List ConnectionId) :
    departures (gone.map .left) = gone := by
  induction gone with
  | nil => rfl
  | cons id rest ih => exact congrArg (id :: ·) ih

theorem length_eq_add (log : List Turn) :
    log.length = (entries log).length + (departures log).length := by
  induction log with
  | nil => rfl
  | cons turn rest ih =>
    cases turn <;>
      simp only [entries_entered_cons, entries_left_cons, departures_entered_cons,
        departures_left_cons, List.length_cons] <;> omega

namespace Table

def enter (t : Table) : Table where
  last := t.last + 1
  ids := t.ids ++ [t.last + 1]
  ascending := by
    refine List.pairwise_append.mpr ⟨t.ascending, List.pairwise_singleton _ _, ?_⟩
    intro i hi j hj
    rw [List.mem_singleton.mp hj]
    exact Int.lt_add_one_of_le (t.issued i hi)
  issued := by
    intro i hi
    rcases List.mem_append.mp hi with hi | hi
    · exact Int.le_of_lt (Int.lt_add_one_of_le (t.issued i hi))
    · exact Int.le_of_eq (List.mem_singleton.mp hi)

def leave (t : Table) (id : ConnectionId) : Table where
  last := t.last
  ids := t.ids.filter fun i => i ≠ id
  ascending := t.ascending.filter _
  issued := fun i hi => t.issued i (List.mem_filter.mp hi).1

theorem filter_next (t : Table) : t.ids.filter (fun i => i ≠ t.last + 1) = t.ids := by
  refine List.filter_eq_self.mpr fun i hi => decide_eq_true ?_
  exact Int.ne_of_lt (Int.lt_add_one_of_le (t.issued i hi))

/-- One table becomes another by these turns. -/
inductive Turns : Table → List Turn → Table → Prop where
  | nil (t : Table) : Turns t [] t
  | enters {t u : Table} {log : List Turn} :
      Turns t.enter log u → Turns t (.entered (t.last + 1) :: log) u
  | leaves {t u : Table} {id : ConnectionId} {log : List Turn} :
      id ∈ t.ids → Turns (t.leave id) log u → Turns t (.left id :: log) u

theorem length_leave {t : Table} {id : ConnectionId} (h : id ∈ t.ids) :
    (t.leave id).ids.length + 1 = t.ids.length := by
  have hnodup : t.ids.Nodup := t.ascending.imp Int.ne_of_lt
  have herase : (t.leave id).ids = t.ids.erase id := by
    rw [hnodup.erase_eq_filter]
    exact List.filter_congr fun i _ => Bool.eq_iff_iff.mpr (by simp)
  rw [herase, List.length_erase_of_mem h]
  exact Nat.sub_add_cancel (List.length_pos_of_mem h)

namespace Turns
variable {t u v : Table} {log more : List Turn}

theorem eq_of_nil (h : Turns t [] u) : u = t := by
  cases h
  rfl

theorem trans (h : Turns t log u) (h' : Turns u more v) : Turns t (log ++ more) v := by
  induction h with
  | nil t => exact h'
  | enters _ ih => exact .enters (ih h')
  | leaves hid _ ih => exact .leaves hid (ih h')

/-- The ids are issued one after the other. -/
theorem entries_eq (h : Turns t log u) :
    entries log = (List.range (entries log).length).map fun i : Nat => t.last + 1 + i := by
  induction h with
  | nil t => rfl
  | @enters t u log _ ih =>
    rw [entries_entered_cons, List.length_cons, List.range_succ_eq_map, List.map_cons,
      List.map_map, ih]
    simp only [List.length_map, List.length_range]
    congr 1
    · exact (Int.add_zero _).symm
    · apply List.map_congr_left
      intro i _
      simp only [enter, Function.comp_apply, Nat.succ_eq_add_one, Int.natCast_add, Int.natCast_one]
      rw [Int.add_assoc, Int.add_comm 1]
  | leaves _ _ ih => exact ih

theorem last_eq (h : Turns t log u) : u.last = t.last + (entries log).length := by
  induction h with
  | nil t => simp [entries]
  | @enters t u log _ ih =>
    rw [ih, entries_entered_cons, List.length_cons, Int.natCast_add, Int.add_comm _ (1 : Nat),
      ← Int.add_assoc]
    rfl
  | leaves _ _ ih => exact ih

/-- Only what is listed, or listed later, leaves. -/
theorem of_mem_departures (h : Turns t log u) {id : ConnectionId} (hid : id ∈ departures log) :
    id ∈ t.ids ∨ t.last < id := by
  induction h with
  | nil t => cases hid
  | @enters t u log _ ih =>
    rcases ih hid with hlisted | hlater
    · rcases List.mem_append.mp hlisted with hlisted | hnew
      · exact Or.inl hlisted
      · rw [List.mem_singleton.mp hnew]
        exact Or.inr (Int.lt_succ t.last)
    · exact Or.inr (Int.lt_trans (Int.lt_succ t.last) hlater)
  | @leaves t u gone log hgone _ ih =>
    rcases List.mem_cons.mp hid with rfl | hid
    · exact Or.inl hgone
    · rcases ih hid with hlisted | hlater
      · exact Or.inl (List.mem_filter.mp hlisted).1
      · exact Or.inr hlater

/-- No id leaves twice: once it is gone it is neither listed nor issued any more. -/
theorem nodup_departures (h : Turns t log u) : (departures log).Nodup := by
  induction h with
  | nil t => exact List.nodup_nil
  | enters _ ih => exact ih
  | @leaves t u id log hid hturns ih =>
    refine List.nodup_cons.mpr ⟨fun hagain => ?_, ih⟩
    rcases hturns.of_mem_departures hagain with hlisted | hlater
    · exact of_decide_eq_true (List.mem_filter.mp hlisted).2 rfl
    · exact absurd (t.issued id hid) (Int.not_le_of_gt hlater)

/-- What is listed in the end was listed or has entered, and has not left. -/
theorem mem_ids_iff (h : Turns t log u) (id : ConnectionId) :
    id ∈ u.ids ↔ (id ∈ t.ids ∨ id ∈ entries log) ∧ id ∉ departures log := by
  induction h with
  | nil t => simp [entries, departures]
  | @enters t u log _ ih =>
    rw [ih, entries_entered_cons, departures_entered_cons, List.mem_cons, ← or_assoc]
    simp only [enter, List.mem_append, List.mem_singleton]
  | @leaves t u gone log hgone hturns ih =>
    rw [ih, entries_left_cons, departures_left_cons]
    simp only [leave, List.mem_filter, decide_eq_true_eq, List.mem_cons, not_or]
    constructor
    · rintro ⟨⟨hlisted, hne⟩ | hentered, hstays⟩
      · exact ⟨Or.inl hlisted, hne, hstays⟩
      · refine ⟨Or.inr hentered, ?_, hstays⟩
        rintro rfl
        -- What enters is issued only now, and what leaves has been listed before.
        rw [hturns.entries_eq] at hentered
        obtain ⟨i, _, hi⟩ := List.mem_map.mp hentered
        have hle := t.issued _ hgone
        have hnonneg : t.last + 1 ≤ t.last + 1 + (i : Int) :=
          Int.le_add_of_nonneg_right (Int.natCast_nonneg i)
        have hlt := Int.lt_of_lt_of_le (Int.lt_succ t.last) hnonneg
        exact Int.not_le_of_gt hlt (hi ▸ hle)
    · rintro ⟨hlisted | hentered, hne, hstays⟩
      · exact ⟨Or.inl ⟨hlisted, hne⟩, hstays⟩
      · exact ⟨Or.inr hentered, hstays⟩

theorem length_ids (h : Turns t log u) :
    u.ids.length + (departures log).length = t.ids.length + (entries log).length := by
  induction h with
  | nil t => rfl
  | @enters t u log _ ih =>
    rw [entries_entered_cons, departures_entered_cons, ih, List.length_cons]
    simp only [enter, List.length_append, List.length_singleton]
    omega
  | @leaves t u gone log hgone _ ih =>
    have hless := length_leave hgone
    rw [entries_left_cons, departures_left_cons, List.length_cons]
    omega

/-- The tables before and after tell how many turns there were. -/
theorem length_unique (h : Turns t log u) (h' : Turns t more u) : log.length = more.length := by
  have hentries : (entries log).length = (entries more).length :=
    Int.ofNat.inj (Int.add_left_cancel (h.last_eq.symm.trans h'.last_eq))
  have hlength := h.length_ids
  have hlength' := h'.length_ids
  rw [length_eq_add, length_eq_add more]
  omega

/-- An id that enters and leaves at once leaves the ids as they were. -/
theorem ids_of_undone {id : ConnectionId} (h : Turns t [.entered id, .left id] u) :
    u.ids = t.ids := by
  cases h with
  | enters h =>
    cases h with
    | leaves _ h =>
      cases h
      simp only [leave, enter, List.filter_append, t.filter_next]
      simp

theorem all (t : Table) {u : Table} (hlast : u.last = t.last) (hids : u.ids = []) :
    Turns t (t.ids.map .left) u := by
  generalize hlisted : t.ids = ids
  induction ids generalizing t with
  | nil =>
    have hsame : u = t := Table.ext hlast (hids.trans hlisted.symm)
    rw [hsame]
    exact .nil t
  | cons id rest ih =>
    have hrest : (t.leave id).ids = rest := by
      have hless := t.ascending
      rw [hlisted, List.pairwise_cons] at hless
      simp only [leave, hlisted, List.filter_cons_of_neg, ne_eq, not_true_eq_false, decide_false,
        Bool.false_eq_true, not_false_eq_true]
      refine List.filter_eq_self.mpr fun i hi => decide_eq_true ?_
      exact (Int.ne_of_lt (hless.1 i hi)).symm
    exact .leaves (by simp [hlisted]) (ih (t.leave id) hlast hrest)

end Turns
end Table

/-! ## The registry -/

namespace Registry
variable {g : Registry}

def table (g : Registry) : Table := ⟨g.lastId, g.ids, g.ascending, g.issued⟩

/-- Records stand under their own ids, and sources are retained only for what is listed. -/
structure Kempt (g : Registry) : Prop where
  records : ∀ id n, g.connections.get? id = some n → n.id = id
  retained : ∀ id ∈ g.retained.ids, id ∈ g.ids

theorem table_add (g : Registry) (request : Request) (k : SourceId) :
    (g.add request k).table = g.table.enter := by
  have hnew : g.ids.filter (fun i => i ≠ g.lastId + 1) = g.ids := g.table.filter_next
  refine Table.ext rfl ?_
  simp only [table, add, ids, Roster.ids_put, Table.enter]
  rw [← ids, hnew]

theorem table_delist (g : Registry) (id : ConnectionId) :
    (g.delist id).table = g.table.leave id :=
  Table.ext rfl (g.connections.ids_erase id)

theorem Kempt.add (h : g.Kempt) (request : Request) (k : SourceId) : (g.add request k).Kempt where
  records := by
    intro id n hn
    simp only [Registry.add, Roster.get?_put] at hn
    split at hn
    · rename_i hid
      cases hn
      exact hid.symm
    · exact h.records id n hn
  retained := by
    intro id hid
    simp only [Registry.add, Registry.ids, Roster.ids_put, List.mem_append,
      List.mem_filter] at hid ⊢
    rcases hid with ⟨hold, hne⟩ | hnew
    · exact Or.inl ⟨h.retained id hold, hne⟩
    · exact Or.inr hnew

theorem Kempt.forget (h : g.Kempt) (id : ConnectionId) : (g.forget id).Kempt where
  records := h.records
  retained := by
    intro i hi
    rw [Registry.forget, Roster.ids_erase] at hi
    exact h.retained i (List.mem_filter.mp hi).1

theorem Kempt.delist (h : g.Kempt) (id : ConnectionId) : ((g.delist id).forget id).Kempt where
  records := fun i n hn => h.records i n (Relay.get?_delist hn).2
  retained := by
    intro i hi
    simp only [Registry.forget, Registry.delist, Registry.ids, Roster.ids_erase,
      List.mem_filter] at hi ⊢
    exact ⟨h.retained i hi.1, hi.2⟩

theorem foldl_forget (forgotten : List ConnectionId) (g : Registry) :
    ∃ retained, forgotten.foldl Registry.forget g = { g with retained := retained } ∧
      retained.ids = g.retained.ids.filter fun i => i ∉ forgotten := by
  induction forgotten generalizing g with
  | nil => exact ⟨g.retained, rfl, (List.filter_eq_self.mpr (by simp)).symm⟩
  | cons id rest ih =>
    obtain ⟨retained, hrest, hids⟩ := ih (g.forget id)
    refine ⟨retained, hrest, ?_⟩
    rw [hids, Registry.forget, Roster.ids_erase, List.filter_filter]
    apply List.filter_congr
    intro i _
    simp [Bool.and_comm]

theorem kempt_cleared (g : Registry) :
    (g.retained.ids.foldl Registry.forget g.delistAll).Kempt ∧
      (g.retained.ids.foldl Registry.forget g.delistAll).table.last = g.lastId ∧
      (g.retained.ids.foldl Registry.forget g.delistAll).table.ids = [] := by
  obtain ⟨retained, hforgotten, hids⟩ := foldl_forget g.retained.ids g.delistAll
  rw [hforgotten]
  refine ⟨⟨?_, ?_⟩, rfl, rfl⟩
  · intro id n hn
    cases hn
  · intro id hid
    rw [hids, List.mem_filter] at hid
    exact absurd hid.1 (of_decide_eq_true hid.2)

end Registry

namespace Relay
variable {r s t : Relay} {log more : List Turn}

/-- What the thread has done to the table and what goes with it. -/
structure Turned (r : Relay) (log : List Turn) (s : Relay) : Prop where
  turns : r.registry.table.Turns log s.registry.table
  kempt : r.registry.Kempt → s.registry.Kempt
  manager : s.manager.map Manager.id = r.manager.map Manager.id

namespace Turned

theorem of_eq (hregistry : s.registry = r.registry)
    (hmanager : s.manager.map Manager.id = r.manager.map Manager.id) : Turned r [] s := by
  refine ⟨?_, fun h => hregistry ▸ h, hmanager⟩
  rw [hregistry]
  exact .nil _

theorem refl (r : Relay) : Turned r [] r := of_eq rfl rfl

theorem trans (h : Turned r log s) (h' : Turned s more t) : Turned r (log ++ more) t :=
  ⟨h.turns.trans h'.turns, fun hr => h'.kempt (h.kempt hr), h'.manager.trans h.manager⟩

theorem updateRegistry (r : Relay) {f : Registry → Registry} (htable : ∀ g, (f g).table = g.table)
    (hkempt : ∀ g, g.Kempt → (f g).Kempt) : Turned r [] (r.updateRegistry f) := by
  refine ⟨?_, ?_, r.manager_updateRegistry f⟩
  · rcases r.registry_updateRegistry_cases f with h | h <;> rw [h]
    · exact .nil _
    · rw [htable]
      exact .nil _
  · rcases r.registry_updateRegistry_cases f with h | h <;> rw [h]
    · exact id
    · exact hkempt r.registry

end Turned

theorem manager_forget (r : Relay) (id : ConnectionId) :
    (r.forget id).manager.map Manager.id = r.manager.map Manager.id := by
  unfold forget
  split
  · rfl
  · rw [manager_reap, manager_updateRegistry]

theorem foldl_forget (forgotten : List ConnectionId) (r : Relay) :
    (forgotten.foldl forget r).registry = forgotten.foldl Registry.forget r.registry ∧
      (forgotten.foldl forget r).manager.map Manager.id = r.manager.map Manager.id ∧
      (forgotten.foldl forget r).journal = r.journal := by
  induction forgotten generalizing r with
  | nil => exact ⟨rfl, rfl, rfl⟩
  | cons id rest ih =>
    obtain ⟨hregistry, hmanager, hjournal⟩ := ih (r.forget id)
    rw [registry_forget] at hregistry
    exact ⟨hregistry, hmanager.trans (r.manager_forget id), hjournal.trans (r.journal_forget id)⟩

theorem turned_forget (r : Relay) (id : ConnectionId) : Turned r [] (r.forget id) := by
  refine ⟨?_, ?_, r.manager_forget id⟩
  · rw [registry_forget]
    exact .nil _
  · rw [registry_forget]
    exact fun h => h.forget id

theorem exists_manager_of_listed {id : ConnectionId}
    (h : r.registry.connections.contains id = true) : ∃ m, r.manager = some m := by
  obtain ⟨n, hn⟩ := Option.isSome_iff_exists.mp h
  cases hm : r.manager with
  | none =>
    rw [registry_of_none hm] at hn
    cases hn
  | some m => exact ⟨m, rfl⟩

theorem registry_delisted {id : ConnectionId} (h : r.registry.connections.contains id = true) :
    (((r.updateRegistry (·.delist id)).forget id).post .announce).registry =
      (r.registry.delist id).forget id := by
  obtain ⟨m, hm⟩ := exists_manager_of_listed h
  rw [← registry_updateRegistry hm fun g => g.delist id, ← registry_forget]
  rfl

theorem turned_delist {id : ConnectionId} (h : r.registry.connections.contains id = true) :
    Turned r [.left id] (((r.updateRegistry (·.delist id)).forget id).post .announce) := by
  refine ⟨?_, ?_, (manager_forget _ id).trans (r.manager_updateRegistry _)⟩
  · rw [registry_delisted h]
    have hlisted : id ∈ r.registry.table.ids := (r.registry.connections.mem_ids_iff id).mpr h
    have hleft : ((r.registry.delist id).forget id).table = r.registry.table.leave id :=
      r.registry.table_delist id
    rw [hleft]
    exact .leaves hlisted (.nil _)
  · rw [registry_delisted h]
    exact fun hr => hr.delist id

/-- Some connections may go while subscribers are told. -/
theorem telling_leaves :
    Telling fun r s => ∃ gone : List ConnectionId, Turned r (gone.map .left) s where
  refl := fun r => ⟨[], .refl r⟩
  trans := by
    rintro r s t ⟨gone, h⟩ ⟨others, h'⟩
    refine ⟨gone ++ others, ?_⟩
    rw [List.map_append]
    exact h.trans h'
  tells := fun r _ _ => ⟨[], .of_eq rfl rfl⟩
  renounce := fun r _ => ⟨[], .of_eq rfl rfl⟩
  unsubscribe := fun r _ => ⟨[], .updateRegistry r (fun _ => rfl) fun _ h => ⟨h.1, h.2⟩⟩
  delist := fun _ id h => ⟨[id], turned_delist h⟩

/-- The turns that a task is asked to bring about, apart from what subscribers do when told. -/
def ownTurns (r : Relay) : Task → List Turn
  | .add m _ _ => if r.isManagedBy m then [.entered (r.registry.lastId + 1)] else []
  | .remove m id => if r.isManagedBy m ∧ id ∈ r.registry.ids then [.left id] else []
  | .sourceClosed m id => if r.isManagedBy m ∧ id ∈ r.registry.ids then [.left id] else []
  | .close m => if r.isManagedBy m then r.registry.ids.map .left else []
  | _ => []

theorem turned_remove (r : Relay) (id : ConnectionId) :
    ∃ gone : List ConnectionId,
      Turned r ((if id ∈ r.registry.ids then [.left id] else []) ++ gone.map .left)
        (remove id r) := by
  have hlisted : id ∈ r.registry.ids ↔ r.registry.connections.contains id = true :=
    r.registry.connections.mem_ids_iff id
  unfold remove
  cases hcount : r.registry.count with
  | zero =>
    have hnil : r.registry.ids = [] :=
      List.map_eq_nil_iff.mpr (List.eq_nil_of_length_eq_zero hcount)
    rw [hnil]
    exact ⟨[], .refl r⟩
  | succ depth =>
    unfold removeWithin
    by_cases hcontains : r.registry.connections.contains id = true
    · rw [if_pos hcontains, if_pos (hlisted.mpr hcontains)]
      obtain ⟨gone, hgone⟩ := telling_leaves.tellAll (telling_leaves.removeWithin depth)
        (r.updateRegistry (·.delist id)).registry.count
        (((r.updateRegistry (·.delist id)).forget id).post .announce)
      exact ⟨gone, (turned_delist hcontains).trans hgone⟩
    · rw [if_neg hcontains, if_neg fun h => hcontains (hlisted.mp h)]
      exact ⟨[], .refl r⟩

/-- The table without connections, before anybody is told. -/
def cleared (r : Relay) : Relay :=
  let r := r.updateRegistry (·.delistAll)
  r.registry.retained.ids.foldl forget r

theorem clear_eq (r : Relay) : r.clear = tellAll remove 0 r.cleared := rfl

theorem registry_cleared (r : Relay) :
    r.cleared.registry = r.registry.retained.ids.foldl Registry.forget r.registry.delistAll := by
  have hsame : (r.updateRegistry (·.delistAll)).registry = r.registry.delistAll := by
    cases hm : r.manager with
    | none => simp [Relay.updateRegistry, registry, hm, Registry.delistAll, Registry.empty]
    | some m => exact registry_updateRegistry hm _
  obtain ⟨hregistry, _, _⟩ := foldl_forget
    (r.updateRegistry (·.delistAll)).registry.retained.ids (r.updateRegistry (·.delistAll))
  rw [cleared, hregistry, hsame]
  rfl

theorem turned_clear (r : Relay) : ∃ gone : List ConnectionId,
    Turned r (r.registry.ids.map .left ++ gone.map .left) r.clear := by
  have hcleared : Turned r (r.registry.ids.map .left) r.cleared := by
    obtain ⟨hkempt, hlast, hids⟩ := r.registry.kempt_cleared
    refine ⟨?_, ?_, ?_⟩
    · rw [registry_cleared]
      exact .all r.registry.table hlast hids
    · rw [registry_cleared]
      exact fun _ => hkempt
    · exact (foldl_forget _ _).2.1.trans (r.manager_updateRegistry _)
  obtain ⟨gone, hgone⟩ := telling_leaves.tellAll telling_leaves.remove 0 r.cleared
  rw [clear_eq]
  exact ⟨gone, hcleared.trans hgone⟩

theorem turned_listing {m : Manager} (hm : r.manager = some m) (request : Request) (k : SourceId) :
    Turned r [.entered (r.registry.lastId + 1)] ((listing m request k r).post .announce) := by
  have hregistry : ((listing m request k r).post .announce).registry = r.registry.add request k :=
    registry_listing hm request k
  refine ⟨?_, ?_, r.manager_updateRegistry (·.add request k)⟩
  · rw [hregistry, Registry.table_add]
    exact .enters (.nil _)
  · rw [hregistry]
    exact fun h => h.add request k

theorem turned_add {m : Manager} (hm : r.manager = some m) (request : Request) (k : SourceId) :
    ∃ gone : List ConnectionId,
      Turned r (.entered (r.registry.lastId + 1) :: gone.map .left) (add m request k r) := by
  obtain ⟨gone, hgone⟩ := telling_leaves.tellAll telling_leaves.remove
    (listing m request k r).registry.count ((listing m request k r).post .announce)
  exact ⟨gone, (turned_listing hm request k).trans hgone⟩

theorem turned_perform (r : Relay) (t : Task) :
    ∃ gone : List ConnectionId, Turned r (r.ownTurns t ++ gone.map .left) (r.perform t) := by
  have hremove : ∀ m id, ∃ gone : List ConnectionId,
      Turned r ((if r.isManagedBy m ∧ id ∈ r.registry.ids then [.left id] else []) ++
        gone.map .left) (if r.isManagedBy m then remove id r else r) := by
    intro m id
    cases r.isManagedBy m with
    | true => simpa only [if_true, true_and] using r.turned_remove id
    | false => exact ⟨[], .refl r⟩
  have hnone : ∀ {s} (b : Bool), Turned r [] s →
      ∃ gone : List ConnectionId, Turned r ([] ++ gone.map .left) (if b then s else r) := by
    intro s b hs
    refine ⟨[], ?_⟩
    cases b with
    | true => exact hs
    | false => exact .refl r
  cases t with
  | add m request k =>
    cases hm : r.manager with
    | none =>
      simp only [perform, ownTurns, isManagedBy, hm]
      exact ⟨[], .refl r⟩
    | some manager =>
      simp only [perform, ownTurns, isManagedBy, hm, Option.any_some]
      by_cases hid : manager.id = m
      · simp only [hid, decide_true, if_true]
        exact turned_add hm request k
      · simp only [hid, decide_false, Bool.false_eq_true, if_false]
        exact ⟨[], .refl r⟩
  | remove m id => exact hremove m id
  | close m =>
    simp only [perform, ownTurns]
    split
    · exact r.turned_clear
    · exact ⟨[], .refl r⟩
  | subscribe m s => exact hnone _ (.updateRegistry r (fun _ => rfl) fun _ h => ⟨h.1, h.2⟩)
  | unsubscribe m id => exact hnone _ (.updateRegistry r (fun _ => rfl) fun _ h => ⟨h.1, h.2⟩)
  | sourceClosed m id => exact hremove m id
  | cursorLeft m id => exact hnone _ (r.turned_forget id)
  | windowElapsed m id => exact hnone _ (r.turned_forget id)
  | announce => exact ⟨[], .of_eq rfl rfl⟩
  | enter e => exact ⟨[], .of_eq rfl rfl⟩

/-! ## From one deed to all -/

/-- The turns that a deed has the thread asked to bring about. -/
def askedTurns (r : Relay) (d : Deed) : List Turn :=
  match r.served? d with
  | none => []
  | some (t, _) => r.ownTurns t

theorem turned_enact (r : Relay) (d : Deed) : ∃ gone : List ConnectionId,
    Turned r (r.askedTurns d ++ gone.map .left) (r.enact d) ∧ (r.served? d = none → gone = []) := by
  unfold askedTurns
  cases hserved : r.served? d with
  | none =>
    refine ⟨[], ?_, fun _ => rfl⟩
    cases hd : Deed.overrides d with
    | false =>
      have hmanager := (aside_enact hserved hd).manager
      exact .of_eq (by rw [registry, registry, hmanager]) (by rw [hmanager])
    | true =>
      cases d with
      | stop => exact .of_eq rfl rfl
      | strike id =>
        simp only [enact]
        split
        · exact .updateRegistry r (fun _ => rfl) fun _ h => ⟨h.1, h.2⟩
        · exact .refl r
      | _ => cases hd
  | some served =>
    obtain ⟨t, a⟩ := served
    obtain ⟨gone, h⟩ := turned_perform { r with agenda := a } t
    refine ⟨gone, ?_, by simp⟩
    rw [enact_of_served hserved]
    exact ⟨h.turns, h.kempt, h.manager⟩

/-- What has happened to the table in the course of a run. Further ids leave only when subscribers
ask for it while they are told of a task that is performed. -/
inductive History : Relay → List Deed → List Turn → Relay → Prop where
  | nil (r : Relay) : History r [] [] r
  | cons {r s : Relay} {d : Deed} {deeds : List Deed} {gone : List ConnectionId}
      {log : List Turn} :
      r.registry.table.Turns (r.askedTurns d ++ gone.map .left) (r.enact d).registry.table →
      (r.served? d = none → gone = []) → History (r.enact d) deeds log s →
      History r (d :: deeds) (r.askedTurns d ++ gone.map .left ++ log) s

theorem exists_history (r : Relay) (deeds : List Deed) :
    ∃ log, History r deeds log (deeds.foldl enact r) := by
  induction deeds generalizing r with
  | nil => exact ⟨[], .nil r⟩
  | cons d rest ih =>
    obtain ⟨gone, hturned, hnone⟩ := r.turned_enact d
    obtain ⟨log, hlog⟩ := ih (r.enact d)
    exact ⟨_, .cons hturned.turns hnone hlog⟩

theorem History.turns {deeds : List Deed} (h : History r deeds log s) :
    r.registry.table.Turns log s.registry.table := by
  induction h with
  | nil r => exact .nil _
  | cons hturns _ _ ih => exact hturns.trans ih

/-- A run keeps the records and the retained sources in order, and the manager in its place. -/
theorem kept_foldl (r : Relay) (deeds : List Deed) :
    (r.registry.Kempt → (deeds.foldl enact r).registry.Kempt) ∧
      (deeds.foldl enact r).manager.map Manager.id = r.manager.map Manager.id := by
  induction deeds generalizing r with
  | nil => exact ⟨id, rfl⟩
  | cons d rest ih =>
    obtain ⟨_, hturned, _⟩ := r.turned_enact d
    obtain ⟨hkempt, hmanager⟩ := ih (r.enact d)
    exact ⟨fun h => hkempt (hturned.kempt h), hmanager.trans hturned.manager⟩

theorem exists_runDeeds_drain (r : Relay) :
    ∃ k, r.drain = (List.replicate k (.move .run)).foldl enact r := by
  obtain ⟨k, hk⟩ := exists_runs r.workload r
  refine ⟨k, ?_⟩
  have hmoves : List.replicate k (Deed.move .run) = (List.replicate k Move.run).map .move := by simp
  rw [hmoves, List.foldl_map]
  exact hk

theorem Hung.settling (h : r.Hung) (hrunning : r.agenda.stopped = false) : r.Settling where
  running := hrunning
  harmless := fun k c hc t ht =>
    adds?_of_hangs (h.sources k c hc t (List.mem_append_right _ ht))

/-! ## Work that is left over -/

/-- The work that is posted, or may be posted, to take one connection away. -/
def undoes (id : ConnectionId) : Task → Bool
  | .remove _ i => i = id
  | .sourceClosed _ i => i = id
  | .cursorLeft _ i => i = id
  | .windowElapsed _ i => i = id
  | _ => false

theorem remove_of_unlisted {id : ConnectionId} (h : id ∉ r.registry.ids) : remove id r = r := by
  have hcontains : ¬r.registry.connections.contains id = true :=
    fun hlisted => h ((r.registry.connections.mem_ids_iff id).mpr hlisted)
  unfold remove
  cases r.registry.count with
  | zero => rfl
  | succ depth =>
    unfold removeWithin
    rw [if_neg hcontains]

theorem forget_of_unlisted (hr : r.registry.Kempt) {id : ConnectionId}
    (h : id ∉ r.registry.ids) : r.forget id = r := by
  have hnone : r.registry.retained.get? id = none := by
    refine Option.eq_none_iff_forall_ne_some.mpr fun k hk => h (hr.retained id ?_)
    exact (r.registry.retained.mem_ids_iff id).mpr (by simp [hk])
  simp only [forget, hnone]

/-- Work for a connection that is gone is idle, whatever else there is to do. -/
theorem perform_of_unlisted (hr : r.registry.Kempt) {id : ConnectionId} (h : id ∉ r.registry.ids)
    {t : Task} (ht : undoes id t = true) (a : Agenda Task) :
    { r with agenda := a }.perform t = { r with agenda := a } := by
  let s : Relay := { r with agenda := a }
  have hremove : remove id s = s := remove_of_unlisted (r := s) h
  have hforget : s.forget id = s := forget_of_unlisted (r := s) hr h
  cases t with
  | remove m i =>
    rw [of_decide_eq_true ht]
    exact (congrArg (fun next => if s.isManagedBy m then next else s) hremove).trans (ite_self s)
  | sourceClosed m i =>
    rw [of_decide_eq_true ht]
    exact (congrArg (fun next => if s.isManagedBy m then next else s) hremove).trans (ite_self s)
  | cursorLeft m i =>
    rw [of_decide_eq_true ht]
    exact (congrArg (fun next => if s.isManagedBy m then next else s) hforget).trans (ite_self s)
  | windowElapsed m i =>
    rw [of_decide_eq_true ht]
    exact (congrArg (fun next => if s.isManagedBy m then next else s) hforget).trans (ite_self s)
  | _ => cases ht

/-- The answer to an addition is the id under which it is listed. -/
theorem addConnection_eq {m : Manager} (hm : r.manager = some m) (hr : r.agenda.stopped = false)
    (request : Request) (k : SourceId) :
    ∃ s, r.addConnection m request k = .ok (r.drain.registry.lastId + 1, s) := by
  obtain ⟨n, hdrain⟩ := r.exists_runDeeds_drain
  have hmanaged : r.drain.manager.map Manager.id = some m.id := by
    rw [hdrain, (kept_foldl r _).2, hm]
    rfl
  obtain ⟨manager, hmanager, hid⟩ := Option.map_eq_some_iff.mp hmanaged
  obtain ⟨gone, hgone⟩ := turned_add hmanager request k
  have hperform : r.drain.perform (.add m.id request k) = add manager request k r.drain := by
    simp only [perform, hmanager, hid, if_true]
  have hlast : (add manager request k r.drain).registry.lastId = r.drain.registry.lastId + 1 := by
    exact hgone.turns.last_eq.trans (by rw [entries_entered_cons, entries_left]; rfl)
  refine ⟨add manager request k r.drain, ?_⟩
  simp only [addConnection, send?, hr, Bool.false_eq_true, if_false, hperform, hlast]

theorem kempt_start (c : Settings) (catalog : Catalog) :
    (runDeeds c catalog []).registry.Kempt := by
  constructor
  · intro id n hn
    cases hn
  · intro id hid
    cases hid

/-- After any deeds, in any order: the ids that have entered the table are 1, 2, 3 and so on, one
for each addition that the thread has performed, and each has left it at most once; what is listed
has entered and has not left. Every record stands under its own id, sources are retained only for
what is listed, and all work that is left over for an id that is not listed changes nothing at all.
Whoever asks for an addition is answered with the next id. -/
theorem ids_come_in_order_and_go_once (c : Settings) (catalog : Catalog) (deeds : List Deed) :
    let r := runDeeds c catalog deeds
    (∃ log, History (runDeeds c catalog []) deeds log r ∧
        (entries log = (List.range (entries log).length).map fun i : Nat => 1 + (i : Int)) ∧
        r.registry.lastId = (entries log).length ∧ (departures log).Nodup ∧
        ∀ id, id ∈ r.registry.ids ↔ id ∈ entries log ∧ id ∉ departures log) ∧
      (∀ id n, r.registry.connections.get? id = some n → n.id = id) ∧
      (∀ id ∈ r.registry.retained.ids, id ∈ r.registry.ids) ∧
      (∀ id ∉ r.registry.ids, ∀ t, undoes id t = true → ∀ a,
        { r with agenda := a }.perform t = { r with agenda := a }) ∧
      (r.agenda.stopped = false → ∀ m request k, r.manager = some m →
        ∃ s, r.addConnection m request k = .ok (r.drain.registry.lastId + 1, s)) := by
  intro r
  have hkempt : r.registry.Kempt := (kept_foldl _ deeds).1 (kempt_start c catalog)
  obtain ⟨log, hlog⟩ := exists_history (runDeeds c catalog []) deeds
  have hturns := hlog.turns
  refine ⟨⟨log, hlog, ?_, ?_, hturns.nodup_departures, ?_⟩, hkempt.records, hkempt.retained, ?_, ?_⟩
  · exact hturns.entries_eq
  · exact hturns.last_eq.trans (Int.zero_add _)
  · intro id
    have hids : id ∈ r.registry.ids ↔ _ := hturns.mem_ids_iff id
    have hstart : id ∉ (runDeeds c catalog []).registry.table.ids := List.not_mem_nil
    simpa only [hstart, false_or] using hids
  · exact fun id hid t ht a => perform_of_unlisted hkempt hid ht a
  · exact fun hrunning m request k hm => addConnection_eq hm hrunning request k

end Relay
end MediaRelay
