import MediaRelay.Connection.Key

/-! # What an identity tells

An identity is read from the left. The first three colons end its first three fields, as long as
there is none inside them; the last field is a star, or starts with the profile, which ends at the
first semicolon. What follows has a fixed shape for each content format, up to the flags, which take
up all that is left. So two protocols have one identity exactly if they agree in what it is made of,
and the same goes for the keys of their requests.
-/
namespace MediaRelay

/-- Where the first separator stands, the front ends. -/
theorem List.append_cons_inj_of_first {α : Type} {sep : α} {front front' back back' : List α}
    (hfront : sep ∉ front) (hfront' : sep ∉ front')
    (h : front ++ sep :: back = front' ++ sep :: back') : front = front' ∧ back = back' := by
  induction front generalizing front' with
  | nil =>
    cases front' with
    | nil => exact ⟨rfl, (List.cons.inj h).2⟩
    | cons a rest => exact absurd ((List.cons.inj h).1 ▸ List.mem_cons_self) hfront'
  | cons a rest ih =>
    cases front' with
    | nil => exact absurd ((List.cons.inj h).1 ▸ List.mem_cons_self) hfront
    | cons b rest' =>
      obtain ⟨rfl, htail⟩ := List.cons.inj h
      obtain ⟨rfl, hback⟩ := ih (fun hmem => hfront (List.mem_cons_of_mem _ hmem))
        (fun hmem => hfront' (List.mem_cons_of_mem _ hmem)) htail
      exact ⟨rfl, hback⟩

namespace Protocol

/-- No colon in the fields that colons set apart, and no semicolon in the profile. -/
structure Plain (p : Protocol) : Prop where
  networkProtocol : ':' ∉ p.networkProtocol.toList
  network : ':' ∉ p.network.toList
  contentFormat : ':' ∉ p.contentFormat.toList
  profile : ';' ∉ p.profile.toList

/-- The same content in the same format over the same transport. -/
structure AlikeInBrief (p q : Protocol) : Prop where
  networkProtocol : p.networkProtocol = q.networkProtocol
  network : p.network = q.network
  contentFormat : p.contentFormat = q.contentFormat
  profile : p.profile = q.profile

/-- Besides, with a profile, the same features; only images have features of playing and seeking. -/
structure Alike (p q : Protocol) : Prop extends p.AlikeInBrief q where
  converted : p.profile ≠ "" → p.converted = q.converted
  flags : p.profile ≠ "" → p.flags = q.flags
  seeking : p.profile ≠ "" → "image/".toList <+: p.contentFormat.toList →
    p.playSpeed = q.playSpeed ∧ p.timeSeek = q.timeSeek ∧ p.rangeSeek = q.rangeSeek

variable {p q : Protocol}

theorem isImage_iff (p : Protocol) :
    p.isImage = true ↔ "image/".toList <+: p.contentFormat.toList :=
  List.isPrefixOf_iff_prefix

/-! ## The features -/

theorem digit_append_inj {b c : Bool} {s t : String} (h : digit b ++ s = digit c ++ t) :
    b = c ∧ s = t := by
  have hlist := congrArg String.toList h
  rw [String.toList_append, String.toList_append] at hlist
  cases b <;> cases c <;> simp [digit, String.toList_inj] at hlist ⊢ <;> exact hlist

/-- The flags are what stands between a fixed front and a fixed end, if anything does. -/
theorem flags_of_flagFeature (h : p.flagFeature = q.flagFeature) : p.flags = q.flags := by
  have hshown : ∀ r : Protocol, r.flags ≠ "" →
      r.flagFeature = ";DLNA.ORG_FLAGS=" ++ r.flags ++ Terms.reservedFlags := by
    intro r hr
    rw [flagFeature, if_neg hr]
  have hhidden : ∀ r : Protocol, r.flags = "" → r.flagFeature = "" := by
    intro r hr
    rw [flagFeature, if_pos hr]
  by_cases hp : p.flags = "" <;> by_cases hq : q.flags = ""
  · rw [hp, hq]
  -- What is shown is not empty, since the fixed front is there.
  · rw [hhidden p hp, hshown q hq, String.ext_iff] at h
    simp [String.toList_append] at h
  · rw [hshown p hp, hhidden q hq, String.ext_iff] at h
    simp [String.toList_append] at h
  · rw [hshown p hp, hshown q hq, String.append_left_inj, String.append_right_inj] at h
    exact h

/-- What follows the profile. -/
def traits (p : Protocol) : String :=
  p.imageFeatures ++ ("DLNA.ORG_CI=" ++ digit p.converted) ++ p.flagFeature

theorem features_eq (h : p.profile ≠ "") :
    p.features = p.profileFeature ++ ";" ++ p.traits := by
  simp only [features, traits, if_neg h, String.append_assoc]

theorem traits_eq (p : Protocol) :
    p.traits = p.imageFeatures ++ ("DLNA.ORG_CI=" ++ (digit p.converted ++ p.flagFeature)) := by
  simp only [traits, String.append_assoc]

theorem imageFeatures_append (h : p.isImage = true) (s : String) :
    p.imageFeatures ++ s = "DLNA.ORG_PS=" ++ (digit p.playSpeed ++ (";DLNA.ORG_OP=" ++
      (digit p.timeSeek ++ (digit p.rangeSeek ++ (";" ++ s))))) := by
  simp only [imageFeatures, h, if_true, String.append_assoc]

theorem imageFeatures_of_not_image (h : p.isImage = false) : p.imageFeatures = "" := by
  simp only [imageFeatures, h, Bool.false_eq_true, if_false]

theorem digit_flagFeature_inj
    (h : digit p.converted ++ p.flagFeature = digit q.converted ++ q.flagFeature) :
    p.converted = q.converted ∧ p.flags = q.flags := by
  obtain ⟨hconverted, hflags⟩ := digit_append_inj h
  exact ⟨hconverted, flags_of_flagFeature hflags⟩

theorem traits_inj (hkind : p.isImage = q.isImage) (h : p.traits = q.traits) :
    p.converted = q.converted ∧ p.flags = q.flags ∧
      (p.isImage = true →
        p.playSpeed = q.playSpeed ∧ p.timeSeek = q.timeSeek ∧ p.rangeSeek = q.rangeSeek) := by
  rw [traits_eq, traits_eq] at h
  cases himage : p.isImage with
  | false =>
    rw [imageFeatures_of_not_image himage,
      imageFeatures_of_not_image (hkind.symm.trans himage)] at h
    have hend := (String.append_right_inj _).mp ((String.append_right_inj _).mp h)
    obtain ⟨hconverted, hflags⟩ := digit_flagFeature_inj hend
    exact ⟨hconverted, hflags, fun hp => by cases hp⟩
  | true =>
    rw [imageFeatures_append himage, imageFeatures_append (hkind.symm.trans himage)] at h
    obtain ⟨hplay, h⟩ := digit_append_inj ((String.append_right_inj _).mp h)
    obtain ⟨htime, h⟩ := digit_append_inj ((String.append_right_inj _).mp h)
    obtain ⟨hrange, h⟩ := digit_append_inj h
    have hend := (String.append_right_inj _).mp ((String.append_right_inj _).mp h)
    obtain ⟨hconverted, hflags⟩ := digit_flagFeature_inj hend
    exact ⟨hconverted, hflags, fun _ => ⟨hplay, htime, hrange⟩⟩

/-! ## The fields -/

/-- A field that does not have the mark in it ends where the mark stands. -/
theorem field_inj {mark : String} {sep : Char} (hmark : mark.toList = [sep]) {a b s t : String}
    (ha : sep ∉ a.toList) (hb : sep ∉ b.toList) (h : a ++ (mark ++ s) = b ++ (mark ++ t)) :
    a = b ∧ s = t := by
  rw [String.ext_iff] at h
  simp only [String.toList_append, hmark, List.singleton_append] at h
  obtain ⟨hfront, hback⟩ := List.append_cons_inj_of_first ha hb h
  exact ⟨String.toList_inj.mp hfront, String.toList_inj.mp hback⟩

theorem identityWith_inj (hp : p.Plain) (hq : q.Plain) {s t : String}
    (h : p.identityWith s = q.identityWith t) :
    p.networkProtocol = q.networkProtocol ∧ p.network = q.network ∧
      p.contentFormat = q.contentFormat ∧
      (if p.profile = "" then "*" else s) = if q.profile = "" then "*" else t := by
  have hcolon : ":".toList = [':'] := rfl
  simp only [identityWith, String.append_assoc] at h
  obtain ⟨htransport, h⟩ := field_inj hcolon hp.networkProtocol hq.networkProtocol h
  obtain ⟨hnetwork, h⟩ := field_inj hcolon hp.network hq.network h
  obtain ⟨hformat, h⟩ := field_inj hcolon hp.contentFormat hq.contentFormat h
  exact ⟨htransport, hnetwork, hformat, h⟩

theorem lastField_inj {s t : String} (hs : p.profile ≠ "" → "DLNA.ORG_PN=".toList <+: s.toList)
    (ht : q.profile ≠ "" → "DLNA.ORG_PN=".toList <+: t.toList)
    (h : (if p.profile = "" then "*" else s) = if q.profile = "" then "*" else t) :
    (p.profile = "" ∧ q.profile = "") ∨ (p.profile ≠ "" ∧ q.profile ≠ "" ∧ s = t) := by
  have hstar : ¬"DLNA.ORG_PN=".toList <+: "*".toList := by decide
  by_cases hp : p.profile = "" <;> by_cases hq : q.profile = ""
  · exact Or.inl ⟨hp, hq⟩
  · rw [if_pos hp, if_neg hq] at h
    exact absurd (h ▸ ht hq) hstar
  · rw [if_neg hp, if_pos hq] at h
    exact absurd (h ▸ hs hp) hstar
  · rw [if_neg hp, if_neg hq] at h
    exact Or.inr ⟨hp, hq, h⟩

theorem profileFeature_prefix (p : Protocol) (s : String) :
    "DLNA.ORG_PN=".toList <+: (p.profileFeature ++ s).toList := by
  rw [profileFeature, String.append_assoc, String.toList_append]
  exact List.prefix_append _ _

/-! ## Identities -/

theorem briefIdentity_eq_iff (hp : p.Plain) (hq : q.Plain) :
    p.briefIdentity = q.briefIdentity ↔ p.AlikeInBrief q := by
  constructor
  · intro h
    obtain ⟨htransport, hnetwork, hformat, hlast⟩ := identityWith_inj hp hq h
    have hfeature : ∀ r : Protocol, "DLNA.ORG_PN=".toList <+: r.profileFeature.toList := by
      intro r
      simpa using r.profileFeature_prefix ""
    refine ⟨htransport, hnetwork, hformat, ?_⟩
    rcases lastField_inj (fun _ => hfeature p) (fun _ => hfeature q) hlast with
      ⟨hnone, hnone'⟩ | ⟨_, _, hprofile⟩
    · rw [hnone, hnone']
    · exact (String.append_right_inj _).mp hprofile
  · rintro ⟨htransport, hnetwork, hformat, hprofile⟩
    simp only [briefIdentity, identityWith, profileFeature, htransport, hnetwork, hformat, hprofile]

theorem features_inj (hp : p.Plain) (hq : q.Plain) (hprofile : p.profile ≠ "")
    (hprofile' : q.profile ≠ "") (h : p.features = q.features) :
    p.profile = q.profile ∧ p.traits = q.traits := by
  rw [features_eq hprofile, features_eq hprofile'] at h
  simp only [profileFeature, String.append_assoc] at h
  exact field_inj rfl hp.profile hq.profile ((String.append_right_inj _).mp h)

theorem alike_of_identity_eq (hp : p.Plain) (hq : q.Plain) (h : p.identity = q.identity) :
    p.Alike q := by
  obtain ⟨htransport, hnetwork, hformat, hlast⟩ := identityWith_inj hp hq h
  have hfeatures : ∀ r : Protocol, r.profile ≠ "" →
      "DLNA.ORG_PN=".toList <+: r.features.toList := by
    intro r hr
    rw [features_eq hr, String.append_assoc]
    exact r.profileFeature_prefix _
  rcases lastField_inj (hfeatures p) (hfeatures q) hlast with
    ⟨hnone, hnone'⟩ | ⟨hsome, hsome', hsame⟩
  · have habsent : ∀ {P : Prop}, p.profile ≠ "" → P := fun hne => absurd hnone hne
    exact ⟨⟨htransport, hnetwork, hformat, hnone.trans hnone'.symm⟩, habsent, habsent, habsent⟩
  · obtain ⟨hprofile, htraits⟩ := features_inj hp hq hsome hsome' hsame
    have hkind : p.isImage = q.isImage := by rw [isImage, isImage, hformat]
    obtain ⟨hconverted, hflags, hseeking⟩ := traits_inj hkind htraits
    exact ⟨⟨htransport, hnetwork, hformat, hprofile⟩, fun _ => hconverted, fun _ => hflags,
      fun _ himage => hseeking (p.isImage_iff.mpr himage)⟩

theorem traits_of_alike (h : p.Alike q) (hprofile : p.profile ≠ "") : p.traits = q.traits := by
  have hkind : p.isImage = q.isImage := by rw [isImage, isImage, h.contentFormat]
  have hflags : p.flagFeature = q.flagFeature := by
    rw [flagFeature, flagFeature, h.flags hprofile]
  have himages : p.imageFeatures = q.imageFeatures := by
    cases himage : p.isImage with
    | false =>
      rw [imageFeatures_of_not_image himage,
        imageFeatures_of_not_image (hkind.symm.trans himage)]
    | true =>
      obtain ⟨hplay, htime, hrange⟩ := h.seeking hprofile (p.isImage_iff.mp himage)
      simp only [imageFeatures, ← hkind, hplay, htime, hrange]
  rw [traits, traits, himages, h.converted hprofile, hflags]

theorem identity_eq_of_alike (h : p.Alike q) : p.identity = q.identity := by
  have hlast : (if p.profile = "" then "*" else p.features) =
      if q.profile = "" then "*" else q.features := by
    by_cases hprofile : p.profile = ""
    · rw [if_pos hprofile, if_pos (h.profile.symm.trans hprofile)]
    · have hprofile' : q.profile ≠ "" := fun he => hprofile (h.profile.trans he)
      rw [if_neg hprofile, if_neg hprofile', features_eq hprofile, features_eq hprofile',
        traits_of_alike h hprofile, profileFeature, profileFeature, h.profile]
  rw [identity, identity, identityWith, identityWith, hlast, h.networkProtocol, h.network,
    h.contentFormat]

/-- The identities of two protocols are the same exactly if the protocols agree in transport,
network, format and profile and, if there is a profile, in their features. The brief identities are
the same exactly if the first four agree. So the keys of two requests are the same exactly if their
protocols agree in all this and they ask for the same resource at the same endpoint with the same
options. -/
theorem identities_tell_apart (hp : p.Plain) (hq : q.Plain) :
    (p.identity = q.identity ↔ p.Alike q) ∧
    (p.briefIdentity = q.briefIdentity ↔ p.AlikeInBrief q) ∧
    ∀ resource resource' endpoint endpoint' options options',
      Request.key ⟨p, resource, endpoint, options⟩ =
          Request.key ⟨q, resource', endpoint', options'⟩ ↔
        p.Alike q ∧ resource = resource' ∧ endpoint = endpoint' ∧ options = options' := by
  have hidentity : p.identity = q.identity ↔ p.Alike q :=
    ⟨alike_of_identity_eq hp hq, identity_eq_of_alike⟩
  refine ⟨hidentity, briefIdentity_eq_iff hp hq, ?_⟩
  intro resource resource' endpoint endpoint' options options'
  rw [Request.key, Request.key, OutputKey.mk.injEq, hidentity]

/-- A thumbnail that can be sought in by time; the colon in its profile and what looks like another
feature in its flags do no harm. -/
def timeSought : Protocol :=
  { Protocol.image Terms.imageJpeg "JPEG:TN" "jpeg" 160 160 with
    timeSeek := true
    flags := "00;DLNA.ORG_FLAGS=00" }

/-- The same thumbnail, sought in by range. -/
def rangeSought : Protocol := { timeSought with timeSeek := false, rangeSeek := true }

theorem thumbnails_told_apart :
    timeSought.Plain ∧ rangeSought.Plain ∧ timeSought.identity ≠ rangeSought.identity ∧
      timeSought.briefIdentity = rangeSought.briefIdentity ∧
      Request.key ⟨timeSought, "m", "e", ""⟩ ≠ Request.key ⟨rangeSought, "m", "e", ""⟩ := by
  have hplain : timeSought.Plain := ⟨by decide, by decide, by decide, by decide⟩
  have hplain' : rangeSought.Plain := ⟨by decide, by decide, by decide, by decide⟩
  have hunlike : ¬timeSought.Alike rangeSought := by
    intro h
    have htime := (h.seeking (by decide) (by decide)).2.1
    cases htime
  obtain ⟨hidentity, hbrief, hkey⟩ := identities_tell_apart hplain hplain'
  refine ⟨hplain, hplain', fun h => hunlike (hidentity.mp h), hbrief.mpr ⟨rfl, rfl, rfl, rfl⟩, ?_⟩
  exact fun h => hunlike ((hkey _ _ _ _ _ _).mp h).1

end Protocol
end MediaRelay
