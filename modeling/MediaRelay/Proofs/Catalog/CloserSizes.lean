import MediaRelay.Proofs.Catalog.Lookup
import MediaRelay.Proofs.Catalog.SizeClasses

/-! # Closer sizes come first

An entry whose size lies between the size that is asked for and the size of another entry costs no
more than the other one. If it was declared before, or if a threshold lies between the two, it comes
before the other entry in the ranking. And what is returned for its profile, be it the entry itself
or a better variant, comes before that entry too.
-/
namespace MediaRelay
namespace Catalog
variable {c : Catalog} {w : Wanted}

/-- The place of a profile among the matches for a request. -/
def rank (c : Catalog) (w : Wanted) (name : String) : Nat :=
  ((c.matchesFor w).map Protocol.profile).idxOf name

theorem nodup_profiles (c : Catalog) (w : Wanted) :
    ((c.matchesFor w).map Protocol.profile).Nodup := by
  rw [profiles_matchesFor]
  exact Ranking.nodup_firstPerProfile _

theorem exists_rank {winners : List Ranking.Placed}
    (hmatches : c.matchesFor w = winners.map fun a => w.grant a.1) {a : Ranking.Placed}
    (ha : a ∈ winners) :
    ∃ n, ∃ hn : n < winners.length, winners[n] = a ∧ c.rank w a.1.profile = n := by
  obtain ⟨n, hn, hget⟩ := List.mem_iff_getElem.mp ha
  refine ⟨n, hn, hget, ?_⟩
  have hprofiles : (c.matchesFor w).map Protocol.profile = winners.map fun a => a.1.profile := by
    rw [hmatches, List.map_map]
    exact List.map_congr_left fun a _ => profile_grant w a.1
  have hnodup := nodup_profiles c w
  rw [hprofiles] at hnodup
  have hidx := hnodup.idxOf_getElem n (by simpa using hn)
  rw [List.getElem_map, hget] at hidx
  rw [rank, hprofiles, hidx]

/-- What wins is returned, in the place of its profile. -/
theorem getElem?_rank {j : Nat} {q : Protocol} (h : c.Wins w j q) :
    (c.matchesFor w)[c.rank w q.profile]? = some (w.grant q) := by
  obtain ⟨winners, hmatches, -, hwins⟩ := c.exists_winners w
  obtain ⟨n, hn, hget, hrank⟩ := exists_rank hmatches ((hwins (q, j)).mpr h)
  rw [hrank, hmatches, List.getElem?_map, List.getElem?_eq_getElem hn, hget]
  rfl

theorem rank_lt_of_before {i j : Nat} {p q : Protocol} (hp : c.Wins w i p) (hq : c.Wins w j q)
    (h : Ranking.Before w.penalty (p, i) (q, j)) : c.rank w p.profile < c.rank w q.profile := by
  obtain ⟨winners, hmatches, hsorted, hwins⟩ := c.exists_winners w
  obtain ⟨m, hm, hgetp, hrankp⟩ := exists_rank hmatches ((hwins (p, i)).mpr hp)
  obtain ⟨n, hn, hgetq, hrankq⟩ := exists_rank hmatches ((hwins (q, j)).mpr hq)
  rw [hrankp, hrankq]
  refine Nat.lt_of_not_le fun hle => ?_
  rcases Nat.lt_or_eq_of_le hle with hlt | rfl
  · have hback := List.pairwise_iff_getElem.mp hsorted n m hn hm hlt
    rw [hgetp, hgetq] at hback
    exact hback.asymm h
  · rw [hgetp] at hgetq
    rw [hgetq] at h
    exact h.asymm h

/-- Whichever variant of a profile is returned, it is as good as any entry with the profile. So it
comes before what the entry would come before. -/
theorem rank_lt_of_entry {i j : Nat} {p q : Protocol} (hp : (w.entries c)[i]? = some p)
    (hq : c.Wins w j q) (h : Ranking.Before w.penalty (p, i) (q, j)) :
    c.rank w p.profile < c.rank w q.profile := by
  have hdeclared : p.profile ∈ (w.entries c).map Protocol.profile :=
    List.mem_map.mpr ⟨p, List.mem_of_getElem? hp, rfl⟩
  obtain ⟨k, best, hbest, hprofile, -⟩ := lookup_of_declared hdeclared
  have hgood := hbest.2 i p hp hprofile.symm
  rw [← hprofile]
  refine rank_lt_of_before hbest hq ?_
  unfold Ranking.Before at *
  dsimp only at *
  omega

/-- An entry that costs no more than another one comes before it if it was declared first, or if the
other one costs more. -/
theorem rank_lt_of_extra {i j extra : Nat} {p q : Protocol} (hp : (w.entries c)[i]? = some p)
    (hq : c.Wins w j q) (hcost : w.penalty q = w.penalty p + extra) (h : i < j ∨ 0 < extra) :
    c.rank w p.profile < c.rank w q.profile := by
  refine rank_lt_of_entry hp hq ?_
  unfold Ranking.Before
  dsimp only
  omega

section
variable {width height : Nat} {p q : Protocol}

theorem image_penalty_add (hwidth : Penalty.Between width p.width q.width)
    (hheight : Penalty.Between height p.height q.height) :
    (Wanted.image width height).penalty q = (Wanted.image width height).penalty p +
      (Penalty.sizeClass Penalty.imageWidths Penalty.thumbnail q.width p.width +
        Penalty.sizeClass Penalty.imageHeights Penalty.thumbnail q.height p.height) := by
  simp only [Wanted.penalty, Penalty.sizeClass_add hwidth, Penalty.sizeClass_add hheight]
  omega

theorem video_penalty_add {channels : Nat} {rate : Float32} (hchannels : p.channels = q.channels)
    (hrate : p.frameRate = q.frameRate)
    (hwidth : Penalty.Between width p.displayWidth q.displayWidth) :
    (Wanted.video channels width rate).penalty q = (Wanted.video channels width rate).penalty p +
      Penalty.sizeClass Penalty.videoWidths Penalty.videoSmall q.displayWidth p.displayWidth := by
  simp only [Wanted.penalty, Penalty.sizeClass_add hwidth, hchannels, hrate]
  omega

end

/-- An entry that wins is returned, in the place of its profile. Where the size of one entry lies
between the size asked for and the size of another entry, and it was declared first or a threshold
parts the two: whenever the other entry is returned, the match for the profile of the first comes
before it. Images are compared by width and height, videos of as many channels and the same frame
rate by their width on screen. -/
theorem closer_size_comes_first (c : Catalog) :
    (∀ w j q, c.Wins w j q → (c.matchesFor w)[c.rank w q.profile]? = some (w.grant q)) ∧
    (∀ width height i j p q, c.image[i]? = some p →
      Penalty.Between width p.width q.width → Penalty.Between height p.height q.height →
      (i < j ∨ (∃ cut ∈ Penalty.imageWidths, Penalty.Parts cut p.width q.width) ∨
        ∃ cut ∈ Penalty.imageHeights, Penalty.Parts cut p.height q.height) →
      c.Wins (.image width height) j q →
        c.rank (.image width height) p.profile < c.rank (.image width height) q.profile) ∧
    (∀ channels width rate i j p q, c.video[i]? = some p →
      p.channels = q.channels → p.frameRate = q.frameRate →
      Penalty.Between width p.displayWidth q.displayWidth →
      (i < j ∨ ∃ cut ∈ Penalty.videoWidths, Penalty.Parts cut p.displayWidth q.displayWidth) →
      c.Wins (.video channels width rate) j q →
        c.rank (.video channels width rate) p.profile <
          c.rank (.video channels width rate) q.profile) := by
  refine ⟨fun w j q => getElem?_rank, ?_, ?_⟩
  · intro width height i j p q hp hwidth hheight hfirst hq
    refine rank_lt_of_extra hp hq (image_penalty_add hwidth hheight) ?_
    rcases hfirst with hless | hparted | hparted
    · exact Or.inl hless
    · exact Or.inr (Nat.add_pos_left (Penalty.sizeClass_pos_of_parts hparted) _)
    · exact Or.inr (Nat.add_pos_right _ (Penalty.sizeClass_pos_of_parts hparted))
  · intro channels width rate i j p q hp hchannels hrate hwidth hfirst hq
    refine rank_lt_of_extra hp hq (video_penalty_add hchannels hrate hwidth) ?_
    exact hfirst.imp id Penalty.sizeClass_pos_of_parts

theorem wins_of_only {j : Nat} {q : Protocol} (hq : (w.entries c)[j]? = some q)
    (honly : ∀ i p, (w.entries c)[i]? = some p → p.profile = q.profile → i = j) :
    c.Wins w j q := by
  refine ⟨hq, fun i p hp hsame => ?_⟩
  obtain rfl := honly i p hp hsame
  exact Or.inr ⟨congrArg w.penalty (Option.some.inj (hq.symm.trans hp)), Nat.le_refl _⟩

def still (profile : String) (width height : Nat) : Protocol :=
  Protocol.image Terms.imageJpeg profile "jpeg" width height

def film (profile : String) (width height : Nat) : Protocol :=
  Protocol.video Terms.videoMpeg profile "mpg" ⟨48000, 2⟩ ⟨width, height, 1, 25000, 1000⟩

def gallery : Catalog :=
  { image := [still "SMALL" 700 500, still "SMALL" 640 480, still "MEDIUM" 1024 768]
    video := [film "WIDE" 1920 1080, film "NARROW" 720 576] }

/-- Of the small images the second is returned, and the first costs as much as the larger one. -/
theorem small_before_medium :
    gallery.Wins (.image 500 300) 2 (still "MEDIUM" 1024 768) ∧
      gallery.rank (.image 500 300) "SMALL" < gallery.rank (.image 500 300) "MEDIUM" ∧
      gallery.Wins (.video 2 700 25) 0 (film "WIDE" 1920 1080) ∧
      gallery.rank (.video 2 700 25) "NARROW" < gallery.rank (.video 2 700 25) "WIDE" := by
  have hmedium : gallery.Wins (.image 500 300) 2 (still "MEDIUM" 1024 768) := by
    refine wins_of_only rfl fun i p hp hsame => ?_
    rcases i with _ | _ | _ | i
    · cases hp
      exact absurd hsame (by decide)
    · cases hp
      exact absurd hsame (by decide)
    · rfl
    · cases hp
  have hwide : gallery.Wins (.video 2 700 25) 0 (film "WIDE" 1920 1080) := by
    refine wins_of_only rfl fun i p hp hsame => ?_
    rcases i with _ | _ | i
    · rfl
    · cases hp
      exact absurd hsame (by decide)
    · cases hp
  obtain ⟨-, himages, hvideos⟩ := closer_size_comes_first gallery
  refine ⟨hmedium, ?_, hwide, ?_⟩
  · exact himages 500 300 0 2 (still "SMALL" 700 500) _ rfl (by decide) (by decide)
      (Or.inl (by decide)) hmedium
  · exact hvideos 2 700 25 1 0 (film "NARROW" 720 576) (film "WIDE" 1920 1080) rfl rfl rfl
      (by decide) (Or.inr (by decide)) hwide

end Catalog
end MediaRelay
