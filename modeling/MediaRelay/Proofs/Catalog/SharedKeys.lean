import MediaRelay.Connection.Key
import MediaRelay.Proofs.Catalog.Lookup

/-! # What requests with one key are granted

The key of a request has the identity of the granted protocol, and the identity says nothing of
rates, channels and sizes, nor of the hints for the encoder. So requests with one key may be granted
variants that no stream fits both of, or one variant with different numbers of channels.
-/
namespace MediaRelay

/-- One stream fits both: the numeric shape and the hints for the encoder are the same. -/
def Protocol.FitsWith (p q : Protocol) : Prop :=
  (p.sampleRate, p.channels, p.width, p.height, p.aspect, p.rateNum, p.rateDen) =
      (q.sampleRate, q.channels, q.width, q.height, q.aspect, q.rateNum, q.rateDen) ∧
    p.encoder = q.encoder

theorem Wanted.identity_grant (w : Wanted) (p : Protocol) : (w.grant p).identity = p.identity := by
  cases w <;> rfl

namespace Catalog
variable {c : Catalog} {w : Wanted} {profile : String} {p : Protocol}

theorem exists_wins_of_require? (h : c.require? profile w = some p) :
    ∃ i e, c.Wins w i e ∧ e.profile = profile ∧ p = { e with channels := w.cap e.channels } ∧
      p.identity = e.identity := by
  have hok : c.require profile w = .ok p := by rw [require, h]
  obtain ⟨⟨_, hdeclared⟩, hlookup⟩ := require_eq_ok_iff.mp hok
  obtain ⟨i, e, hwins, hprofile, hgrant⟩ := lookup_of_declared hdeclared
  have hp : p = w.grant e := hlookup.symm.trans hgrant
  exact ⟨i, e, hwins, hprofile, hp.trans (w.grant_eq e), hp ▸ w.identity_grant e⟩

/-- Two requests with one key are granted winning entries of one identity, each with its channels
capped. One stream fits both exactly if these entries have the same rates, sizes and hints, and as
many channels are left of each; the key makes sure of none of that. -/
theorem fits_iff_of_key_eq {v : Wanted} {other : String} {q : Protocol}
    {resource endpoint options : String}
    (hp : c.require? profile w = some p) (hq : c.require? other v = some q)
    (hkey : Request.key ⟨p, resource, endpoint, options⟩ =
      Request.key ⟨q, resource, endpoint, options⟩) :
    ∃ i e j f, c.Wins w i e ∧ e.profile = profile ∧ p = { e with channels := w.cap e.channels } ∧
      c.Wins v j f ∧ f.profile = other ∧ q = { f with channels := v.cap f.channels } ∧
      e.identity = f.identity ∧
      (p.FitsWith q ↔
        (e.sampleRate, e.width, e.height, e.aspect, e.rateNum, e.rateDen) =
            (f.sampleRate, f.width, f.height, f.aspect, f.rateNum, f.rateDen) ∧
          e.encoder = f.encoder ∧ w.cap e.channels = v.cap f.channels) := by
  obtain ⟨i, e, he, hprofile, hpe, hidp⟩ := exists_wins_of_require? hp
  obtain ⟨j, f, hf, hother, hqf, hidq⟩ := exists_wins_of_require? hq
  have hid : p.identity = q.identity := congrArg OutputKey.protocol hkey
  refine ⟨i, e, j, f, he, hprofile, hpe, hf, hother, hqf, hidp.symm.trans (hid.trans hidq), ?_⟩
  rw [hpe, hqf]
  simp only [Protocol.FitsWith, Prod.mk.injEq]
  constructor
  · rintro ⟨⟨hrate, hchannels, hshape⟩, hhints⟩
    exact ⟨⟨hrate, hshape⟩, hhints, hchannels⟩
  · rintro ⟨⟨hrate, hshape⟩, hhints, hchannels⟩
    exact ⟨⟨hrate, hchannels, hshape⟩, hhints⟩

def variants : Catalog :=
  (Catalog.empty.addAudio "MP3" Terms.audioMp3 "mp3" ⟨44100, 2⟩ {}).addAudio "MP3" Terms.audioMp3
    "mp3" ⟨48000, 6⟩ {}

def variantFor (channels : Nat) : Protocol :=
  if 2 < channels then
    (Protocol.audio Terms.audioMp3 "MP3" "mp3" ⟨48000, min 6 channels⟩).withEncoder {}
  else (Protocol.audio Terms.audioMp3 "MP3" "mp3" ⟨44100, min 2 channels⟩).withEncoder {}

theorem require?_variants (channels : Nat) :
    variants.require? "MP3" (.audio channels) = some (variantFor channels) := by
  obtain ⟨s, hs⟩ : ∃ s, s = (Protocol.audio Terms.audioMp3 "MP3" "mp3" ⟨44100, 2⟩).withEncoder {} :=
    ⟨_, rfl⟩
  obtain ⟨t, ht⟩ : ∃ t, t = (Protocol.audio Terms.audioMp3 "MP3" "mp3" ⟨48000, 6⟩).withEncoder {} :=
    ⟨_, rfl⟩
  have hentries : (Wanted.audio channels).entries variants = [s, t] := by rw [hs, ht]; rfl
  have hsname : s.profile = "MP3" := by rw [hs]; rfl
  have htname : t.profile = "MP3" := by rw [ht]; rfl
  have hsc : s.channels = 2 := by rw [hs]; rfl
  have htc : t.channels = 6 := by rw [ht]; rfl
  by_cases hsurround : 2 < channels
  · have hgrant : variantFor channels = { t with channels := min 6 channels } := by
      rw [variantFor, if_pos hsurround, ht]
      rfl
    simp [require?, lookup, matchesFor, hentries, Ranking.byCost, Ranking.place,
      Ranking.firstPerProfile, Wanted.penalty, Penalty.channels, Penalty.layout, Wanted.grant,
      Protocol.isValid, hsurround, hsname, htname, hsc, htc, hgrant]
  · have hgrant : variantFor channels = { s with channels := min 2 channels } := by
      rw [variantFor, if_neg hsurround, hs]
      rfl
    simp [require?, lookup, matchesFor, hentries, Ranking.byCost, Ranking.place,
      Ranking.firstPerProfile, Wanted.penalty, Penalty.channels, Penalty.layout, Wanted.grant,
      Protocol.isValid, hsurround, hsname, htname, hsc, htc, hgrant]

/-- Requests for six and for eight channels are granted one variant with six; one for two is granted
the other variant, under the same key. -/
theorem variants_of_one_key :
    Request.key ⟨variantFor 6, "m", "e", ""⟩ = Request.key ⟨variantFor 8, "m", "e", ""⟩ ∧
      (variantFor 6).FitsWith (variantFor 8) ∧
      Request.key ⟨variantFor 2, "m", "e", ""⟩ = Request.key ⟨variantFor 6, "m", "e", ""⟩ ∧
      ¬(variantFor 2).FitsWith (variantFor 6) := by
  have hmore : Request.key ⟨variantFor 6, "m", "e", ""⟩ =
      Request.key ⟨variantFor 8, "m", "e", ""⟩ := rfl
  have hless : Request.key ⟨variantFor 2, "m", "e", ""⟩ =
      Request.key ⟨variantFor 6, "m", "e", ""⟩ := rfl
  refine ⟨hmore, ?_, hless, ?_⟩
  · obtain ⟨_, e, _, f, _, _, he, _, _, hf, _, hfits⟩ :=
      fits_iff_of_key_eq (require?_variants 6) (require?_variants 8) hmore
    have hsame : variantFor 6 = variantFor 8 := rfl
    have hgrants := he.symm.trans (hsame.trans hf)
    have hshape := congrArg
      (fun p => (p.sampleRate, p.width, p.height, p.aspect, p.rateNum, p.rateDen)) hgrants
    have hhints := congrArg Protocol.encoder hgrants
    have hchannels := congrArg Protocol.channels hgrants
    exact hfits.mpr ⟨hshape, hhints, hchannels⟩
  · obtain ⟨_, e, _, f, _, _, he, _, _, hf, _, hfits⟩ :=
      fits_iff_of_key_eq (require?_variants 2) (require?_variants 6) hless
    intro h
    have hrate : e.sampleRate = f.sampleRate := congrArg Prod.fst (hfits.mp h).1
    have hrates : (variantFor 2).sampleRate = (variantFor 6).sampleRate :=
      (congrArg Protocol.sampleRate he).trans (hrate.trans (congrArg Protocol.sampleRate hf).symm)
    exact absurd hrates (by decide)

/-- A request for one channel and a request for two have one key, and no stream fits both. -/
theorem one_key_for_unlike_grants :
    ¬∀ (c : Catalog) (profile other : String) (w v : Wanted) (p q : Protocol)
      (resource endpoint options : String),
      c.require? profile w = some p → c.require? other v = some q →
      Request.key ⟨p, resource, endpoint, options⟩ = Request.key ⟨q, resource, endpoint, options⟩ →
        p.FitsWith q := by
  intro h
  have hfits : (variantFor 1).FitsWith (variantFor 2) :=
    h variants "MP3" "MP3" (.audio 1) (.audio 2) (variantFor 1) (variantFor 2) "m" "e" ""
      (require?_variants 1) (require?_variants 2) rfl
  have hchannels : (variantFor 1).channels = (variantFor 2).channels :=
    congrArg (fun shape => shape.2.1) hfits.1
  exact absurd hchannels (by decide)

end Catalog
end MediaRelay
