import MediaRelay.Catalog.Ranking

/-! # Which entries match a request

Every entry is taken together with its place in the catalog. Of the entries of one profile, the one
that comes first by penalty and then by place is the best; the matches are the best entries of all
profiles, in the same order. The order is strict, so it leaves no choice.
-/
namespace MediaRelay

namespace Ranking
variable (cost : Protocol → Nat)

/-- An entry with its place in the catalog. -/
abbrev Placed := Protocol × Nat

/-- By cost, and by place where the costs are equal. -/
def Before (a b : Placed) : Prop := cost a.1 < cost b.1 ∨ cost a.1 = cost b.1 ∧ a.2 < b.2

variable {cost}

theorem Before.asymm {a b : Placed} (h : Before cost a b) : ¬Before cost b a := by
  unfold Before at *
  omega

/-- An entry placed before all that are sorted goes behind the cheaper ones and before its
equals. -/
theorem exists_place {sorted : List Placed} (hs : sorted.Pairwise (Before cost)) {p : Protocol}
    {i : Nat} (hi : ∀ a ∈ sorted, i < a.2) :
    ∃ more : List Placed, more.map Prod.fst = place cost p (sorted.map Prod.fst) ∧
      more.Perm ((p, i) :: sorted) ∧ more.Pairwise (Before cost) := by
  induction sorted with
  | nil => exact ⟨[(p, i)], rfl, List.Perm.refl _, List.pairwise_singleton _ _⟩
  | cons a rest ih =>
    obtain ⟨hfirst, hrest⟩ := List.pairwise_cons.mp hs
    by_cases hle : cost p ≤ cost a.1
    · refine ⟨(p, i) :: a :: rest, by simp [place, hle], List.Perm.refl _, ?_⟩
      refine List.pairwise_cons.mpr ⟨?_, hs⟩
      intro b hb
      have hib : i < b.2 := hi b hb
      have hab : cost a.1 ≤ cost b.1 := by
        rcases List.mem_cons.mp hb with rfl | hb
        · exact Nat.le_refl _
        · rcases hfirst b hb with h | ⟨h, _⟩
          · exact Nat.le_of_lt h
          · exact Nat.le_of_eq h
      unfold Before
      dsimp only
      omega
    · obtain ⟨more, hmap, hperm, hsorted⟩ := ih hrest fun b hb => hi b (List.mem_cons_of_mem _ hb)
      refine ⟨a :: more, by simp [place, hle, hmap], ?_, ?_⟩
      · exact (hperm.cons a).trans (List.Perm.swap _ _ _)
      · refine List.pairwise_cons.mpr ⟨?_, hsorted⟩
        intro b hb
        rcases List.mem_cons.mp (hperm.mem_iff.mp hb) with rfl | hb
        · exact Or.inl (Nat.lt_of_not_le hle)
        · exact hfirst b hb

theorem exists_byCost (cost : Protocol → Nat) (entries : List Protocol) (n : Nat) :
    ∃ sorted : List Placed, sorted.map Prod.fst = byCost cost entries ∧
      sorted.Perm (entries.zipIdx n) ∧ sorted.Pairwise (Before cost) := by
  induction entries generalizing n with
  | nil => exact ⟨[], rfl, List.Perm.refl _, List.Pairwise.nil⟩
  | cons p rest ih =>
    obtain ⟨sorted, hmap, hperm, hsorted⟩ := ih (n + 1)
    have hlater : ∀ a ∈ sorted, n < a.2 := by
      intro a ha
      exact (List.mk_mem_zipIdx_iff_le_and_getElem?_sub.mp (hperm.mem_iff.mp ha)).1
    obtain ⟨more, hmore, hp, hs⟩ := exists_place hsorted hlater (p := p)
    refine ⟨more, ?_, ?_, hs⟩
    · rw [hmore, hmap]
      rfl
    · rw [List.zipIdx_cons]
      exact hp.trans (hperm.cons _)

theorem byCost_perm (cost : Protocol → Nat) (entries : List Protocol) :
    (byCost cost entries).Perm entries := by
  obtain ⟨sorted, hmap, hperm, -⟩ := exists_byCost cost entries 0
  have h := hperm.map Prod.fst
  rwa [hmap, List.zipIdx_map_fst] at h

/-- No entry of the same profile comes before this one. -/
def IsBest (cost : Protocol → Nat) (placed : List Placed) (a : Placed) : Prop :=
  a ∈ placed ∧ ∀ b ∈ placed, b.1.profile = a.1.profile → b = a ∨ Before cost a b

theorem exists_firstPerProfile {sorted : List Placed} (hs : sorted.Pairwise (Before cost)) :
    ∃ best : List Placed, best.map Prod.fst = firstPerProfile (sorted.map Prod.fst) ∧
      best.Pairwise (Before cost) ∧ ∀ a, a ∈ best ↔ IsBest cost sorted a := by
  induction sorted with
  | nil => exact ⟨[], rfl, List.Pairwise.nil, by simp [IsBest]⟩
  | cons a rest ih =>
    obtain ⟨hfirst, hrest⟩ := List.pairwise_cons.mp hs
    obtain ⟨best, hmap, hsorted, hmem⟩ := ih hrest
    have hkept : ∀ b, b ∈ best.filter (fun b => b.1.profile ≠ a.1.profile) ↔
        IsBest cost rest b ∧ b.1.profile ≠ a.1.profile := by
      intro b
      rw [List.mem_filter, hmem, decide_eq_true_eq]
    refine ⟨a :: best.filter (fun b => b.1.profile ≠ a.1.profile), ?_, ?_, ?_⟩
    · simp only [List.map_cons, firstPerProfile]
      rw [← hmap, List.filter_map]
      rfl
    · refine List.pairwise_cons.mpr ⟨?_, hsorted.filter _⟩
      intro b hb
      exact hfirst b ((hkept b).mp hb).1.1
    · intro b
      rw [List.mem_cons, hkept]
      constructor
      · rintro (rfl | ⟨⟨hb, hbest⟩, hne⟩)
        · refine ⟨List.mem_cons_self, ?_⟩
          intro d hd _
          exact (List.mem_cons.mp hd).imp id (hfirst d)
        · refine ⟨List.mem_cons_of_mem _ hb, ?_⟩
          intro d hd hsame
          rcases List.mem_cons.mp hd with rfl | hd
          · exact absurd hsame.symm hne
          · exact hbest d hd hsame
      · rintro ⟨hb, hbest⟩
        by_cases hsame : a.1.profile = b.1.profile
        · left
          rcases List.mem_cons.mp hb with rfl | hb
          · rfl
          · rcases hbest a List.mem_cons_self hsame with heq | hbefore
            · exact heq.symm
            · exact absurd (hfirst b hb) hbefore.asymm
        · right
          rcases List.mem_cons.mp hb with rfl | hb
          · exact absurd rfl hsame
          · exact ⟨⟨hb, fun d hd => hbest d (List.mem_cons_of_mem _ hd)⟩, fun h => hsame h.symm⟩

theorem nodup_firstPerProfile (entries : List Protocol) :
    ((firstPerProfile entries).map Protocol.profile).Nodup := by
  induction entries with
  | nil => exact List.nodup_nil
  | cons p rest ih =>
    rw [firstPerProfile, List.map_cons]
    refine List.nodup_cons.mpr ⟨?_, ih.sublist (List.filter_sublist.map _)⟩
    intro hp
    obtain ⟨q, hq, hsame⟩ := List.mem_map.mp hp
    exact of_decide_eq_true (List.mem_filter.mp hq).2 hsame

theorem mem_profile_firstPerProfile (entries : List Protocol) (name : String) :
    name ∈ (firstPerProfile entries).map Protocol.profile ↔
      name ∈ entries.map Protocol.profile := by
  induction entries with
  | nil => rfl
  | cons p rest ih =>
    have hiff : name ∈ ((firstPerProfile rest).filter fun q => q.profile ≠ p.profile).map
        Protocol.profile ↔ name ∈ (firstPerProfile rest).map Protocol.profile ∧
          name ≠ p.profile := by
      simp only [List.mem_map, List.mem_filter, decide_eq_true_eq]
      constructor
      · rintro ⟨q, ⟨hq, hne⟩, rfl⟩
        exact ⟨⟨q, hq, rfl⟩, hne⟩
      · rintro ⟨⟨q, hq, rfl⟩, hne⟩
        exact ⟨q, ⟨hq, hne⟩, rfl⟩
    rw [firstPerProfile, List.map_cons, List.map_cons, List.mem_cons, List.mem_cons, hiff, ih]
    by_cases hname : name = p.profile <;> simp [hname]

end Ranking

namespace Wanted

/-- The most channels that a request takes, where it says anything about channels. -/
def mostChannels? : Wanted → Option Nat
  | audio channels => some channels
  | video channels _ _ => some channels
  | image _ _ => none

/-- The channels that are granted of those that an entry has. -/
def cap (w : Wanted) (channels : Nat) : Nat := w.mostChannels?.elim channels (min channels)

theorem grant_eq (w : Wanted) (p : Protocol) :
    w.grant p = { p with channels := w.cap p.channels } := by
  cases w <;> rfl

end Wanted

namespace Catalog
variable (c : Catalog) (w : Wanted)

theorem profile_grant (p : Protocol) : (w.grant p).profile = p.profile := by
  rw [Wanted.grant_eq]

/-- An entry that a request is best served with, of all that have its profile: of the lowest
penalty, and declared first among those. -/
def Wins (i : Nat) (p : Protocol) : Prop :=
  (w.entries c)[i]? = some p ∧
    ∀ j q, (w.entries c)[j]? = some q → q.profile = p.profile →
      w.penalty p < w.penalty q ∨ w.penalty p = w.penalty q ∧ i ≤ j

theorem isBest_iff_wins (a : Ranking.Placed) :
    Ranking.IsBest w.penalty (w.entries c).zipIdx a ↔ c.Wins w a.2 a.1 := by
  simp only [Ranking.IsBest, Wins, Ranking.Before, List.mk_mem_zipIdx_iff_getElem?, Prod.forall]
  constructor
  · rintro ⟨ha, hbest⟩
    refine ⟨List.mk_mem_zipIdx_iff_getElem?.mp ha, ?_⟩
    intro j q hq hsame
    rcases hbest q j hq hsame with rfl | hbefore
    · exact Or.inr ⟨rfl, Nat.le_refl _⟩
    · omega
  · rintro ⟨ha, hbest⟩
    refine ⟨List.mk_mem_zipIdx_iff_getElem?.mpr ha, ?_⟩
    intro q j hq hsame
    by_cases hplace : a.2 = j
    · subst hplace
      exact Or.inl (Prod.ext (Option.some.inj (hq.symm.trans ha)) rfl)
    · have h := hbest j q hq hsame
      omega

theorem exists_winners :
    ∃ winners : List Ranking.Placed, c.matchesFor w = winners.map (fun a => w.grant a.1) ∧
      winners.Pairwise (Ranking.Before w.penalty) ∧ ∀ a, a ∈ winners ↔ c.Wins w a.2 a.1 := by
  obtain ⟨sorted, hmap, hperm, hsorted⟩ := Ranking.exists_byCost w.penalty (w.entries c) 0
  obtain ⟨best, hbest, hpair, hmem⟩ := Ranking.exists_firstPerProfile hsorted
  refine ⟨best, ?_, hpair, ?_⟩
  · rw [matchesFor, ← hmap, ← hbest, List.map_map]
    rfl
  · intro a
    have hiff : Ranking.IsBest w.penalty sorted a ↔
        Ranking.IsBest w.penalty (w.entries c).zipIdx a := by
      simp only [Ranking.IsBest, hperm.mem_iff]
    rw [hmem, hiff, isBest_iff_wins]

theorem profiles_matchesFor :
    (c.matchesFor w).map Protocol.profile =
      (Ranking.firstPerProfile (Ranking.byCost w.penalty (w.entries c))).map Protocol.profile := by
  rw [matchesFor, List.map_map]
  exact List.map_congr_left fun p _ => profile_grant w p

/-- The matches for a request are the winning entries of the catalog, one for each profile that is
declared, by penalty and then by place; what is granted is the entry with its channels capped. -/
theorem matches_are_winners :
    ∃ winners : List (Protocol × Nat),
      c.matchesFor w = winners.map (fun a => w.grant a.1) ∧
      (∀ p i, (p, i) ∈ winners ↔ c.Wins w i p) ∧
      winners.Pairwise (fun a b =>
        w.penalty a.1 < w.penalty b.1 ∨ w.penalty a.1 = w.penalty b.1 ∧ a.2 < b.2) ∧
      ((c.matchesFor w).map Protocol.profile).Nodup ∧
      (∀ name, name ∈ (c.matchesFor w).map Protocol.profile ↔
        name ∈ (w.entries c).map Protocol.profile) ∧
      ∀ p, w.grant p = { p with channels := w.cap p.channels } := by
  obtain ⟨winners, hmatches, hpair, hmem⟩ := c.exists_winners w
  refine ⟨winners, hmatches, fun p i => hmem (p, i), hpair, ?_, ?_, w.grant_eq⟩
  · rw [profiles_matchesFor]
    exact Ranking.nodup_firstPerProfile _
  · intro name
    have hperm := (Ranking.byCost_perm w.penalty (w.entries c)).map Protocol.profile
    rw [profiles_matchesFor, Ranking.mem_profile_firstPerProfile, hperm.mem_iff]

end Catalog
end MediaRelay
