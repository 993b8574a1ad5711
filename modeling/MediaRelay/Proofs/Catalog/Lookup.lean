import MediaRelay.Proofs.Catalog.Matches

/-! # Looking up a profile

The entries of other profiles are of no account when a profile is looked up: they can be taken out
before the entries are sorted, and what comes first of the rest is found. So a profile that is
declared is found whatever shape is asked for, in the variant that wins.
-/
namespace MediaRelay

namespace Ranking
variable {cost : Protocol → Nat}

theorem sorted_byCost (cost : Protocol → Nat) (entries : List Protocol) :
    (byCost cost entries).Pairwise fun p q => cost p ≤ cost q := by
  obtain ⟨sorted, hmap, -, hsorted⟩ := exists_byCost cost entries 0
  rw [← hmap]
  refine List.pairwise_map.mpr (hsorted.imp ?_)
  intro a b hbefore
  rcases hbefore with hless | ⟨hsame, -⟩
  · exact Nat.le_of_lt hless
  · exact Nat.le_of_eq hsame

theorem place_of_le {p : Protocol} {entries : List Protocol} (h : ∀ q ∈ entries, cost p ≤ cost q) :
    place cost p entries = p :: entries := by
  cases entries with
  | nil => rfl
  | cons q rest => rw [place, if_pos (h q List.mem_cons_self)]

theorem filter_place (keep : Protocol → Bool) (p : Protocol) {sorted : List Protocol}
    (hs : sorted.Pairwise fun p q => cost p ≤ cost q) :
    (place cost p sorted).filter keep =
      if keep p then place cost p (sorted.filter keep) else sorted.filter keep := by
  induction sorted with
  | nil => by_cases hp : keep p <;> simp [place, hp]
  | cons q rest ih =>
    obtain ⟨hfirst, hrest⟩ := List.pairwise_cons.mp hs
    by_cases hle : cost p ≤ cost q
    · have hall : ∀ r ∈ (q :: rest).filter keep, cost p ≤ cost r := by
        intro r hr
        rcases List.mem_cons.mp (List.mem_filter.mp hr).1 with rfl | hr
        · exact hle
        · exact Nat.le_trans hle (hfirst r hr)
      rw [place, if_pos hle, List.filter_cons, place_of_le hall]
    · rw [place, if_neg hle, List.filter_cons, List.filter_cons, ih hrest]
      by_cases hp : keep p <;> by_cases hq : keep q <;> simp [place, hp, hq, hle]

theorem filter_byCost (keep : Protocol → Bool) (entries : List Protocol) :
    (byCost cost entries).filter keep = byCost cost (entries.filter keep) := by
  induction entries with
  | nil => rfl
  | cons p rest ih =>
    have hplace := filter_place keep p (sorted_byCost cost rest)
    rw [ih] at hplace
    rw [List.filter_cons]
    refine hplace.trans ?_
    by_cases hp : keep p <;> simp [hp, byCost]

theorem find?_firstPerProfile (name : String) (entries : List Protocol) :
    (firstPerProfile entries).find? (fun p => p.profile = name) =
      entries.find? fun p => p.profile = name := by
  induction entries with
  | nil => rfl
  | cons p rest ih =>
    rw [firstPerProfile, List.find?_cons, List.find?_cons]
    by_cases hp : p.profile = name
    · simp [hp]
    · -- Only entries of the profile of `p` are dropped, and none of those is looked for.
      simp only [hp, decide_false]
      rw [List.find?_filter, ← ih]
      congr 1
      funext q
      by_cases hq : q.profile = name
      · have hne : q.profile ≠ p.profile := fun he => hp (he.symm.trans hq)
        simp [hq, Ne.symm hp]
      · simp [hq]

end Ranking

namespace Catalog
variable {c : Catalog} {w : Wanted} {name : String}

def ofProfile (c : Catalog) (name : String) : Catalog :=
  { c with
    audio := c.audio.filter fun p => p.profile = name
    video := c.video.filter fun p => p.profile = name
    image := c.image.filter fun p => p.profile = name }

theorem entries_ofProfile (c : Catalog) (w : Wanted) (name : String) :
    w.entries (c.ofProfile name) = (w.entries c).filter fun p => p.profile = name := by
  cases w <;> rfl

theorem lookup_eq (c : Catalog) (name : String) (w : Wanted) :
    c.lookup name w =
      ((Ranking.byCost w.penalty (w.entries (c.ofProfile name))).head?.map w.grant).getD
        Protocol.unset := by
  have hprofile : ((fun p : Protocol => decide (p.profile = name)) ∘ w.grant) =
      fun p => decide (p.profile = name) := by
    funext p
    simp only [Function.comp_apply, profile_grant]
  rw [lookup, matchesFor, List.find?_map, hprofile, Ranking.find?_firstPerProfile,
    entries_ofProfile, ← Ranking.filter_byCost, List.head?_filter]

theorem lookup_ofProfile (c : Catalog) (name : String) (w : Wanted) :
    (c.ofProfile name).lookup name w = c.lookup name w := by
  rw [lookup_eq, lookup_eq, entries_ofProfile, entries_ofProfile, List.filter_filter]
  simp only [Bool.and_self]

theorem Wins.unique {i j : Nat} {p q : Protocol} (hp : c.Wins w i p) (hq : c.Wins w j q)
    (hsame : p.profile = q.profile) : p = q := by
  have hij := hp.2 j q hq.1 hsame.symm
  have hji := hq.2 i p hp.1 hsame
  have hplace : i = j := by omega
  subst hplace
  exact Option.some.inj (hp.1.symm.trans hq.1)

/-- A profile that is declared is found, in the variant that wins. -/
theorem lookup_of_declared (h : name ∈ (w.entries c).map Protocol.profile) :
    ∃ i e, c.Wins w i e ∧ e.profile = name ∧ c.lookup name w = w.grant e := by
  obtain ⟨winners, hmatches, -, hwins⟩ := c.exists_winners w
  have hperm := (Ranking.byCost_perm w.penalty (w.entries c)).map Protocol.profile
  have hmem : name ∈ (c.matchesFor w).map Protocol.profile := by
    rw [profiles_matchesFor, Ranking.mem_profile_firstPerProfile]
    exact hperm.mem_iff.mpr h
  obtain ⟨p, hp, hname⟩ := List.mem_map.mp hmem
  have hsome : ((c.matchesFor w).find? fun p => p.profile = name).isSome := by
    rw [List.find?_isSome]
    exact ⟨p, hp, decide_eq_true hname⟩
  obtain ⟨q, hq⟩ := Option.isSome_iff_exists.mp hsome
  have hfound : q ∈ winners.map fun a => w.grant a.1 := hmatches ▸ List.mem_of_find?_eq_some hq
  obtain ⟨a, ha, rfl⟩ := List.mem_map.mp hfound
  have hgranted : (w.grant a.1).profile = name := by simpa using List.find?_some hq
  have hprofile : a.1.profile = name := (profile_grant w a.1).symm.trans hgranted
  exact ⟨a.2, a.1, (hwins a).mp ha, hprofile, by rw [lookup, hq, Option.getD_some]⟩

theorem lookup_of_undeclared (h : name ∉ (w.entries c).map Protocol.profile) :
    c.lookup name w = Protocol.unset := by
  have hnone : w.entries (c.ofProfile name) = [] := by
    rw [entries_ofProfile, List.filter_eq_nil_iff]
    intro p hp hname
    exact h (List.mem_map.mpr ⟨p, hp, of_decide_eq_true hname⟩)
  rw [lookup_eq, hnone]
  rfl

theorem isValid_lookup_iff (c : Catalog) (name : String) (w : Wanted) :
    (c.lookup name w).isValid = true ↔
      name ≠ "" ∧ name ∈ (w.entries c).map Protocol.profile := by
  by_cases hdeclared : name ∈ (w.entries c).map Protocol.profile
  · obtain ⟨i, e, -, hprofile, hlookup⟩ := lookup_of_declared hdeclared
    rw [hlookup, Protocol.isValid, profile_grant, hprofile]
    simp [hdeclared]
  · rw [lookup_of_undeclared hdeclared]
    simp [Protocol.unset, Protocol.isValid, hdeclared]

theorem require_eq (c : Catalog) (name : String) (w : Wanted) :
    c.require name w =
      if (c.lookup name w).isValid then .ok (c.lookup name w)
      else .error (.unsupportedProfile name) := by
  unfold require require?
  by_cases hvalid : (c.lookup name w).isValid = true <;> simp [hvalid]

theorem require_eq_ok_iff {p : Protocol} :
    c.require name w = .ok p ↔
      (name ≠ "" ∧ name ∈ (w.entries c).map Protocol.profile) ∧ c.lookup name w = p := by
  rw [require_eq, ← isValid_lookup_iff]
  by_cases hvalid : (c.lookup name w).isValid = true <;> simp [hvalid]

theorem require_eq_error_iff {f : Failure} :
    c.require name w = .error f ↔
      ¬(name ≠ "" ∧ name ∈ (w.entries c).map Protocol.profile) ∧
        f = .unsupportedProfile name := by
  rw [require_eq, ← isValid_lookup_iff]
  by_cases hvalid : (c.lookup name w).isValid = true <;> simp [hvalid, eq_comm]

theorem declared_of_wins {i : Nat} {e : Protocol} (h : c.Wins w i e) (hprofile : e.profile = name) :
    name ∈ (w.entries c).map Protocol.profile :=
  List.mem_map.mpr ⟨e, List.mem_of_getElem? h.1, hprofile⟩

theorem lookup_of_wins {i : Nat} {e : Protocol} (h : c.Wins w i e) (hprofile : e.profile = name) :
    c.lookup name w = w.grant e := by
  obtain ⟨j, f, hwins, hprofile', hlookup⟩ := lookup_of_declared (declared_of_wins h hprofile)
  rw [hlookup, h.unique hwins (hprofile.trans hprofile'.symm)]

/-- Whatever shape is asked for, a profile is granted exactly if it has a name and is declared for
the kind of content. It is granted in its winning variant, with the channels capped, and the entries
of other profiles make no difference. Otherwise the failure has the profile in it; what is not
declared is looked up as unset. -/
theorem declared_profile_is_granted (c : Catalog) (name : String) (w : Wanted) :
    (∀ p, c.require name w = .ok p ↔
      name ≠ "" ∧ ∃ i e, c.Wins w i e ∧ e.profile = name ∧
        p = { e with channels := w.cap e.channels }) ∧
    ((∃ p, c.require name w = .ok p) ↔
      name ≠ "" ∧ name ∈ (w.entries c).map Protocol.profile) ∧
    (∀ f, c.require name w = .error f ↔
      ¬(name ≠ "" ∧ name ∈ (w.entries c).map Protocol.profile) ∧
        f = .unsupportedProfile name) ∧
    (name ∈ (w.entries c).map Protocol.profile →
      ∃ i e, c.Wins w i e ∧ e.profile = name ∧
        c.lookup name w = { e with channels := w.cap e.channels }) ∧
    (name ∉ (w.entries c).map Protocol.profile → c.lookup name w = Protocol.unset) ∧
    (c.ofProfile name).lookup name w = c.lookup name w ∧
    (c.ofProfile name).require name w = c.require name w := by
  have hwinner : name ∈ (w.entries c).map Protocol.profile →
      ∃ i e, c.Wins w i e ∧ e.profile = name ∧
        c.lookup name w = { e with channels := w.cap e.channels } := by
    intro hdeclared
    obtain ⟨i, e, hwins, hprofile, hlookup⟩ := lookup_of_declared hdeclared
    exact ⟨i, e, hwins, hprofile, hlookup.trans (w.grant_eq e)⟩
  refine ⟨?_, ?_, fun f => require_eq_error_iff, hwinner, lookup_of_undeclared,
    lookup_ofProfile c name w, ?_⟩
  · intro p
    rw [require_eq_ok_iff]
    constructor
    · rintro ⟨⟨hname, hdeclared⟩, rfl⟩
      exact ⟨hname, hwinner hdeclared⟩
    · rintro ⟨hname, i, e, hwins, hprofile, rfl⟩
      refine ⟨⟨hname, declared_of_wins hwins hprofile⟩, ?_⟩
      rw [lookup_of_wins hwins hprofile, w.grant_eq]
  · constructor
    · rintro ⟨p, hp⟩
      exact (require_eq_ok_iff.mp hp).1
    · intro hdeclared
      exact ⟨c.lookup name w, require_eq_ok_iff.mpr ⟨hdeclared, rfl⟩⟩
  · rw [require_eq, require_eq, lookup_ofProfile]

end Catalog
end MediaRelay
