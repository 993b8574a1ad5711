import MediaRelay.Total

/-! # Rosters

A roster keeps entries under ids, in the order in which they joined. An id occurs at most once:
putting an entry under an id that is present replaces the old entry. What a look-up finds after
each operation, and which ids there are, is said by one lemma for each.
-/
namespace MediaRelay

structure Roster (κ α : Type) where
  entries : List (κ × α) := []
  distinct : (entries.map Prod.fst).Nodup := by exact List.nodup_nil

namespace Roster
variable {κ α : Type}

def empty : Roster κ α := {}

def ids (r : Roster κ α) : List κ := r.entries.map Prod.fst

def values (r : Roster κ α) : List α := r.entries.map Prod.snd

def size (r : Roster κ α) : Nat := r.entries.length

def mapValues (r : Roster κ α) (f : α → α) : Roster κ α where
  entries := r.entries.map fun e => (e.1, f e.2)
  distinct := by simpa [Function.comp_def] using r.distinct

@[simp] theorem ids_empty : (empty : Roster κ α).ids = [] := rfl

theorem nodup_ids (r : Roster κ α) : r.ids.Nodup := r.distinct

@[simp] theorem ids_mapValues (r : Roster κ α) (f : α → α) : (r.mapValues f).ids = r.ids := by
  simp [ids, mapValues, Function.comp_def]

theorem eq_of_entries {r s : Roster κ α} (h : r.entries = s.entries) : r = s := by
  cases r
  cases s
  cases h
  rfl

theorem eq_of_fst_eq (r : Roster κ α) {d e : κ × α} (hd : d ∈ r.entries) (he : e ∈ r.entries)
    (h : d.1 = e.1) : d = e := by
  have hp := List.pairwise_iff_getElem.mp (List.pairwise_map.mp r.distinct)
  obtain ⟨i, hi, rfl⟩ := List.getElem_of_mem hd
  obtain ⟨j, hj, rfl⟩ := List.getElem_of_mem he
  rcases Nat.lt_trichotomy i j with hij | rfl | hij
  · exact absurd h (hp i j hi hj hij)
  · rfl
  · exact absurd h.symm (hp j i hj hi hij)

variable [DecidableEq κ]

def get? (r : Roster κ α) (k : κ) : Option α :=
  (r.entries.find? fun e => e.1 = k).map Prod.snd

def contains (r : Roster κ α) (k : κ) : Bool := (r.get? k).isSome

def erase (r : Roster κ α) (k : κ) : Roster κ α where
  entries := r.entries.filter fun e => e.1 ≠ k
  distinct := r.distinct.sublist (List.filter_sublist.map Prod.fst)

def put (r : Roster κ α) (k : κ) (a : α) : Roster κ α where
  entries := (r.erase k).entries ++ [(k, a)]
  distinct := by
    have h := (r.erase k).distinct
    simp only [List.map_append, List.map_cons, List.map_nil]
    refine List.nodup_append.mpr ⟨h, by simp, ?_⟩
    intro j hj i hi
    simp only [erase, List.mem_map, List.mem_filter] at hj
    obtain ⟨e, ⟨_, he⟩, rfl⟩ := hj
    rw [List.mem_singleton.mp hi]
    exact of_decide_eq_true he

def modify (r : Roster κ α) (k : κ) (f : α → α) : Roster κ α where
  entries := r.entries.map fun e => if e.1 = k then (e.1, f e.2) else e
  distinct := by
    have h : (r.entries.map fun e => if e.1 = k then (e.1, f e.2) else e).map Prod.fst
        = r.entries.map Prod.fst := by
      rw [List.map_map]
      apply List.map_congr_left
      intro e _
      by_cases he : e.1 = k <;> simp [he]
    exact h ▸ r.distinct

@[simp] theorem get?_empty (k : κ) : (empty : Roster κ α).get? k = none := rfl

@[simp] theorem ids_erase (r : Roster κ α) (k : κ) :
    (r.erase k).ids = r.ids.filter fun j => j ≠ k := by
  simp [ids, erase, List.filter_map, Function.comp_def]

@[simp] theorem ids_put (r : Roster κ α) (k : κ) (a : α) :
    (r.put k a).ids = (r.ids.filter fun j => j ≠ k) ++ [k] := by
  rw [← ids_erase]
  simp [ids, put]

@[simp] theorem ids_modify (r : Roster κ α) (k : κ) (f : α → α) : (r.modify k f).ids = r.ids := by
  simp only [ids, modify, List.map_map]
  apply List.map_congr_left
  intro e _
  by_cases h : e.1 = k <;> simp [h]

theorem get?_mapValues (r : Roster κ α) (f : α → α) (k : κ) :
    (r.mapValues f).get? k = (r.get? k).map f := by
  simp [get?, mapValues, List.find?_map, Function.comp_def]

theorem get?_erase (r : Roster κ α) (k j : κ) :
    (r.erase k).get? j = if j = k then none else r.get? j := by
  simp only [get?, erase, List.find?_filter]
  split
  · rename_i h
    subst h
    simp [List.find?_eq_none]
  · rename_i h
    congr 2
    funext e
    by_cases he : e.1 = j <;> simp [he, h]

theorem get?_put (r : Roster κ α) (k j : κ) (a : α) :
    (r.put k a).get? j = if j = k then some a else r.get? j := by
  have h : (r.put k a).get? j = ((r.erase k).get? j).or (if k = j then some a else none) := by
    simp only [get?, put, List.find?_append]
    cases List.find? (fun e => decide (e.1 = j)) (r.erase k).entries <;>
      by_cases hk : k = j <;> simp [hk]
  rw [h, get?_erase]
  by_cases hj : j = k
  · simp [hj]
  · have hk : k ≠ j := fun e => hj e.symm
    simp [hj, hk]

theorem get?_modify (r : Roster κ α) (k j : κ) (f : α → α) :
    (r.modify k f).get? j = if j = k then (r.get? j).map f else r.get? j := by
  have h : ((fun e : κ × α => decide (e.1 = j)) ∘ fun e => if e.1 = k then (e.1, f e.2) else e)
      = fun e => decide (e.1 = j) := by
    funext e
    by_cases he : e.1 = k <;> simp [he]
  simp only [get?, modify, List.find?_map, h]
  cases hf : List.find? (fun e => decide (e.1 = j)) r.entries with
  | none => simp
  | some e =>
    have hj : e.1 = j := by simpa using List.find?_some hf
    by_cases hk : j = k <;> simp [hj, hk]

theorem mem_ids_iff (r : Roster κ α) (k : κ) : k ∈ r.ids ↔ (r.get? k).isSome := by
  simp [ids, get?, List.find?_isSome]

/-- What is found under an id is exactly what stands there, since no id occurs twice. -/
theorem get?_eq_some_iff (r : Roster κ α) (k : κ) (a : α) :
    r.get? k = some a ↔ (k, a) ∈ r.entries := by
  constructor
  · intro h
    obtain ⟨e, he, rfl⟩ := Option.map_eq_some_iff.mp h
    have hk : e.1 = k := by simpa using List.find?_some he
    exact hk ▸ List.mem_of_find?_eq_some he
  · intro h
    have hs : (r.get? k).isSome := (r.mem_ids_iff k).mp (List.mem_map.mpr ⟨(k, a), h, rfl⟩)
    obtain ⟨b, hb⟩ := Option.isSome_iff_exists.mp hs
    obtain ⟨e, he, rfl⟩ := Option.map_eq_some_iff.mp hb
    have hk : e.1 = k := by simpa using List.find?_some he
    rw [hb, r.eq_of_fst_eq (List.mem_of_find?_eq_some he) h hk]

theorem size_eq_zero_iff (r : Roster κ α) : r.size = 0 ↔ ∀ k, r.get? k = none := by
  constructor
  · intro h k
    rw [get?, List.eq_nil_of_length_eq_zero h]
    rfl
  · intro h
    refine List.length_eq_zero_iff.mpr (List.eq_nil_iff_forall_not_mem.mpr ?_)
    rintro ⟨k, a⟩ he
    have hs := (r.get?_eq_some_iff k a).mpr he
    rw [h k] at hs
    cases hs

theorem erase_of_fresh {r : Roster κ α} {k : κ} (h : r.get? k = none) : r.erase k = r := by
  apply eq_of_entries
  simp only [erase, List.filter_eq_self]
  intro e he
  refine decide_eq_true fun hk => ?_
  have hs := (r.get?_eq_some_iff k e.2).mpr (hk ▸ he)
  rw [h] at hs
  cases hs

theorem modify_modify (r : Roster κ α) (k : κ) (f g : α → α) :
    (r.modify k f).modify k g = r.modify k fun a => g (f a) := by
  apply eq_of_entries
  simp only [modify, List.map_map]
  refine List.map_congr_left fun e _ => ?_
  by_cases h : e.1 = k <;> simp [h]

theorem erase_modify (r : Roster κ α) (k : κ) (f : α → α) : (r.modify k f).erase k = r.erase k := by
  apply eq_of_entries
  simp only [erase, modify, List.filter_map]
  have hsame : (fun e : κ × α => decide (e.1 ≠ k)) ∘ (fun e => if e.1 = k then (e.1, f e.2) else e)
      = fun e => decide (e.1 ≠ k) := by
    funext e
    by_cases he : e.1 = k <;> simp [he]
  rw [hsame]
  refine (List.map_congr_left fun e he => if_neg ?_).trans (List.map_id _)
  exact of_decide_eq_true (List.mem_filter.mp he).2

theorem entries_put_of_fresh {r : Roster κ α} {k : κ} (h : r.get? k = none) (a : α) :
    (r.put k a).entries = r.entries ++ [(k, a)] := by
  simp only [put, erase_of_fresh h]

theorem exists_entries {r : Roster κ α} {k : κ} {a : α} (h : r.get? k = some a) :
    ∃ front back, r.entries = front ++ (k, a) :: back ∧ ∀ e ∈ front ++ back, e.1 ≠ k := by
  obtain ⟨front, back, hentries⟩ := List.append_of_mem ((r.get?_eq_some_iff k a).mp h)
  have hnodup := r.distinct
  rw [hentries, List.map_append, List.map_cons] at hnodup
  obtain ⟨_, hback, hfront⟩ := List.nodup_append.mp hnodup
  refine ⟨front, back, hentries, ?_⟩
  intro e he hk
  rcases List.mem_append.mp he with he | he
  · exact hfront e.1 (List.mem_map_of_mem he) k List.mem_cons_self hk
  · have hmem : e.1 ∈ back.map Prod.fst := List.mem_map_of_mem he
    exact (List.nodup_cons.mp hback).1 (hk ▸ hmem)

theorem exists_entries_modify {r : Roster κ α} {k : κ} {a : α} (h : r.get? k = some a) :
    ∃ front back, r.entries = front ++ (k, a) :: back ∧
      ∀ f, (r.modify k f).entries = front ++ (k, f a) :: back := by
  obtain ⟨front, back, hentries, hothers⟩ := exists_entries h
  refine ⟨front, back, hentries, ?_⟩
  intro f
  have hfixed : ∀ es : List (κ × α), (∀ e ∈ es, e.1 ≠ k) →
      (es.map fun e => if e.1 = k then (e.1, f e.2) else e) = es := by
    intro es hes
    exact (List.map_congr_left fun e he => if_neg (hes e he)).trans (List.map_id _)
  have hf := hfixed front fun e he => hothers e (List.mem_append_left back he)
  have hb := hfixed back fun e he => hothers e (List.mem_append_right front he)
  simp only [modify, hentries, List.map_append, List.map_cons, hf, hb, if_true]

theorem modify_of_fresh {r : Roster κ α} {k : κ} (h : r.get? k = none) (f : α → α) :
    (r.modify k f).entries = r.entries := by
  simp only [modify]
  refine (List.map_congr_left fun e he => if_neg ?_).trans (List.map_id _)
  intro hk
  have hs := (r.get?_eq_some_iff k e.2).mpr (hk ▸ he)
  rw [h] at hs
  cases hs

theorem modify_congr {r : Roster κ α} {k : κ} {a : α} (h : r.get? k = some a) {f g : α → α}
    (hfg : f a = g a) : r.modify k f = r.modify k g := by
  apply eq_of_entries
  simp only [modify]
  refine List.map_congr_left fun e he => ?_
  split
  · rename_i hk
    have hfound : r.get? k = some e.2 := (r.get?_eq_some_iff k e.2).mpr (hk ▸ he)
    have hsame : e.2 = a := Option.some.inj (hfound.symm.trans h)
    rw [hsame, hfg]
  · rfl

theorem exists_entries_erase {r : Roster κ α} {k : κ} {a : α} (h : r.get? k = some a) :
    ∃ front back, r.entries = front ++ (k, a) :: back ∧ (r.erase k).entries = front ++ back := by
  obtain ⟨front, back, hentries, hothers⟩ := exists_entries h
  refine ⟨front, back, hentries, ?_⟩
  have hkept : (front ++ back).filter (fun e => decide (e.1 ≠ k)) = front ++ back :=
    List.filter_eq_self.mpr fun e he => decide_eq_true (hothers e he)
  simpa [erase, hentries] using hkept

theorem total_modify {r : Roster κ α} {k : κ} {a : α} (h : r.get? k = some a) (f : α → α)
    (weight : α → Nat) :
    total weight (r.modify k f).values + weight a = total weight r.values + weight (f a) := by
  obtain ⟨front, back, hentries, hmodify⟩ := exists_entries_modify h
  simp only [values, hentries, hmodify, List.map_append, List.map_cons, total_append, total_cons]
  omega

theorem total_erase {r : Roster κ α} {k : κ} {a : α} (h : r.get? k = some a) (weight : α → Nat) :
    total weight (r.erase k).values + weight a = total weight r.values := by
  obtain ⟨front, back, hentries, herase⟩ := exists_entries_erase h
  simp only [values, hentries, herase, List.map_append, List.map_cons, total_append, total_cons]
  omega

theorem size_erase {r : Roster κ α} {k : κ} {a : α} (h : r.get? k = some a) :
    (r.erase k).size + 1 = r.size := by
  obtain ⟨front, back, hentries, herase⟩ := exists_entries_erase h
  simp only [size, hentries, herase, List.length_append, List.length_cons]
  omega

theorem size_put_le (r : Roster κ α) (k : κ) (a : α) : (r.put k a).size ≤ r.size + 1 := by
  have hle : (r.erase k).entries.length ≤ r.entries.length := List.length_filter_le _ _
  simpa [size, put] using hle

theorem total_put {r : Roster κ α} {k : κ} (h : r.get? k = none) (a : α) (weight : α → Nat) :
    total weight (r.put k a).values = total weight r.values + weight a := by
  simp [values, entries_put_of_fresh h]

theorem mem_values_iff (r : Roster κ α) (a : α) : a ∈ r.values ↔ ∃ k, r.get? k = some a := by
  simp [values, get?_eq_some_iff]

end Roster
end MediaRelay
