import Mathlib
import MediaRelay.Proofs.Relay.Turns
import MediaRelay.Service.ConnectionManager

/-! # What evented texts tell

The evented variables hold lists in one line of text, with commas between the items. Splitting the
line at its commas gives the items back exactly if there are any and none of them has a comma in it.
Ids are written in decimal, so whatever has happened to the table they are read back as they are
listed. Protocols are told by their brief identities, in the order of their declaration, as long as
their fields have no comma.
-/
namespace MediaRelay

/-! ## Lines of text -/

/-- The pieces of a text between its commas; a text without commas is one piece. -/
def commaPieces (text : String) : List String := (text.split ',').toList.map (·.copy)

theorem commaPieces_eq (text : String) :
    commaPieces text = (text.toList.splitOn ',').map String.ofList := String.toList_split_char

theorem commaPieces_ne_nil (text : String) : commaPieces text ≠ [] := by
  rw [commaPieces_eq]
  simp

theorem commaPieces_empty : commaPieces "" = [""] := by
  rw [commaPieces_eq]
  rfl

theorem List.not_mem_of_mem_splitOn {α : Type} [BEq α] [LawfulBEq α] {sep : α} {piece : List α}
    (xs : List α) (h : piece ∈ xs.splitOn sep) : sep ∉ piece := by
  induction xs generalizing piece with
  | nil =>
    rw [List.splitOn_nil, List.mem_singleton] at h
    simp [h]
  | cons x rest ih =>
    rw [List.splitOn_cons_eq_if_modifyHead] at h
    by_cases hx : (x == sep) = true
    · rw [if_pos hx] at h
      rcases List.mem_cons.mp h with rfl | hrest
      · exact List.not_mem_nil
      · exact ih hrest
    -- What is no separator joins the first piece of the rest.
    · rw [if_neg hx] at h
      obtain ⟨first, others, hsplit⟩ := List.exists_cons_of_ne_nil (List.splitOn_ne_nil sep rest)
      rw [hsplit, List.modifyHead_cons] at h
      rcases List.mem_cons.mp h with rfl | hothers
      · have hfirst : sep ∉ first := ih (hsplit ▸ List.mem_cons_self)
        have hne : sep ≠ x := fun he => hx (he ▸ beq_self_eq_true sep)
        simp [hne, hfirst]
      · exact ih (hsplit ▸ List.mem_cons_of_mem first hothers)

theorem comma_not_mem_of_mem_commaPieces {text piece : String} (h : piece ∈ commaPieces text) :
    ',' ∉ piece.toList := by
  rw [commaPieces_eq] at h
  obtain ⟨chars, hchars, rfl⟩ := List.mem_map.mp h
  rw [String.toList_ofList]
  exact List.not_mem_of_mem_splitOn text.toList hchars

/-- A line tells its items exactly if there are any and none has a comma in it. -/
theorem commaPieces_commaJoined_iff (items : List String) :
    commaPieces (commaJoined items) = items ↔ items ≠ [] ∧ ∀ s ∈ items, ',' ∉ s.toList := by
  constructor
  · intro h
    constructor
    · rintro rfl
      exact commaPieces_ne_nil _ h
    · intro s hs
      rw [← h] at hs
      exact comma_not_mem_of_mem_commaPieces hs
  · rintro ⟨hne, hplain⟩
    have hsplit := String.toList_split_intercalate hplain
    rw [if_neg hne] at hsplit
    exact hsplit

/-! ## Ids -/

theorem comma_not_mem_toString (n : Int) : ',' ∉ (toString n).toList := by
  have hdigits : ∀ k : Nat, ',' ∉ k.repr.toList := by
    intro k hmem
    rw [Nat.toList_repr] at hmem
    have hdigit := Nat.isDigit_of_mem_toDigits (by decide) (by decide) hmem
    cases hdigit
  rw [Int.toString_eq_repr, Int.repr_eq_if]
  split
  · exact hdigits n.toNat
  · have hsign : ',' ∉ "-".toList := by decide
    rw [String.toList_append, List.mem_append, not_or]
    exact ⟨hsign, hdigits (-n).toNat⟩

namespace Registry

theorem commaPieces_idList {g : Registry} (h : g.ids ≠ []) :
    commaPieces g.idList = g.ids.map toString := by
  refine (commaPieces_commaJoined_iff _).mpr ⟨by simpa using h, ?_⟩
  intro s hs
  obtain ⟨id, -, rfl⟩ := List.mem_map.mp hs
  exact comma_not_mem_toString id

theorem read_idList {g : Registry} (h : g.ids ≠ []) :
    (commaPieces g.idList).map String.toInt? = g.ids.map some := by
  rw [commaPieces_idList h, List.map_map]
  apply List.map_congr_left
  intro id _
  -- Of all modules only the whole of Mathlib brings the lemmas on reading numbers.
  exact Int.toInt?_repr id

/-- The empty line has one piece, and this piece is no number. -/
theorem idList_eq_empty_iff (g : Registry) : g.idList = "" ↔ g.ids = [] := by
  constructor
  · intro hempty
    by_contra hids
    have hread := read_idList hids
    have hnumber : "".toInt? = none := by cbv
    rw [hempty, commaPieces_empty, List.map_singleton, hnumber] at hread
    have hmem : none ∈ g.ids.map some := hread ▸ List.mem_singleton_self none
    simp at hmem
  · intro hids
    rw [idList, hids]
    rfl

end Registry

/-! ## Identities -/

namespace Protocol

/-- No comma in what a brief identity is made of. -/
structure CommaFree (p : Protocol) : Prop where
  networkProtocol : ',' ∉ p.networkProtocol.toList
  network : ',' ∉ p.network.toList
  contentFormat : ',' ∉ p.contentFormat.toList
  profile : ',' ∉ p.profile.toList

theorem commaFree_iff (p : Protocol) : p.CommaFree ↔ ',' ∉ p.networkProtocol.toList ∧
    ',' ∉ p.network.toList ∧ ',' ∉ p.contentFormat.toList ∧ ',' ∉ p.profile.toList :=
  ⟨fun h => ⟨h.1, h.2, h.3, h.4⟩, fun ⟨htransport, hnetwork, hformat, hprofile⟩ =>
    ⟨htransport, hnetwork, hformat, hprofile⟩⟩

theorem comma_not_mem_briefIdentity_iff (p : Protocol) :
    ',' ∉ p.briefIdentity.toList ↔ p.CommaFree := by
  have hcolon : ',' ∉ ":".toList := by decide
  have hname : ',' ∉ "DLNA.ORG_PN=".toList := by decide
  have hlast : ',' ∉ (if p.profile = "" then "*" else p.profileFeature).toList ↔
      ',' ∉ p.profile.toList := by
    by_cases hprofile : p.profile = ""
    · simp [hprofile]
    · rw [if_neg hprofile, profileFeature, String.toList_append, List.mem_append]
      simp only [hname, false_or]
  simp only [briefIdentity, identityWith, String.toList_append, List.mem_append, not_or, hcolon,
    hlast, not_false_eq_true, and_true, and_assoc, commaFree_iff]

theorem commaPieces_identities_iff (ps : List Protocol) :
    commaPieces (commaJoined (ps.map briefIdentity)) = ps.map briefIdentity ↔
      ps ≠ [] ∧ ∀ p ∈ ps, p.CommaFree := by
  rw [commaPieces_commaJoined_iff]
  simp only [ne_eq, List.map_eq_nil_iff, List.forall_mem_map, comma_not_mem_briefIdentity_iff]

end Protocol

/-! ## Declarations -/

/-- The lists of a catalog. -/
inductive Shelf where
  | audio
  | video
  | image
  | sink
deriving DecidableEq

inductive Declaration where
  | audio (profile format suffix : String) (a : AudioShape) (h : EncoderHints)
  | video (profile format suffix : String) (a : AudioShape) (v : VideoShape) (h : EncoderHints)
  | image (profile format suffix : String) (width height : Nat)
  | sink (p : Protocol)

namespace Declaration

def shelf : Declaration → Shelf
  | audio _ _ _ _ _ => .audio
  | video _ _ _ _ _ _ => .video
  | image _ _ _ _ _ => .image
  | sink _ => .sink

def protocol : Declaration → Protocol
  | audio profile format suffix a h => (Protocol.audio format profile suffix a).withEncoder h
  | video profile format suffix a v h => (Protocol.video format profile suffix a v).withEncoder h
  | image profile format suffix width height => Protocol.image format profile suffix width height
  | sink p => p

end Declaration

namespace Catalog

def onShelf (c : Catalog) : Shelf → List Protocol
  | .audio => c.audio
  | .video => c.video
  | .image => c.image
  | .sink => c.sinks

def declare (c : Catalog) : Declaration → Catalog
  | .audio profile format suffix a h => c.addAudio profile format suffix a h
  | .video profile format suffix a v h => c.addVideo profile format suffix a v h
  | .image profile format suffix width height => c.addImage profile format suffix width height
  | .sink p => c.addSink p

def ofDeclarations (ds : List Declaration) : Catalog := ds.foldl declare empty

theorem onShelf_declare (c : Catalog) (d : Declaration) (k : Shelf) :
    (c.declare d).onShelf k = c.onShelf k ++ if d.shelf = k then [d.protocol] else [] := by
  cases d <;> cases k <;>
    simp [declare, onShelf, Declaration.shelf, Declaration.protocol, addAudio, addVideo, addImage,
      addSink]

theorem onShelf_foldl_declare (ds : List Declaration) (c : Catalog) (k : Shelf) :
    (ds.foldl declare c).onShelf k =
      c.onShelf k ++ (ds.filter fun d => d.shelf = k).map Declaration.protocol := by
  induction ds generalizing c with
  | nil => simp
  | cons d rest ih =>
    rw [List.foldl_cons, ih (c.declare d), onShelf_declare]
    by_cases hshelf : d.shelf = k <;> simp [hshelf]

theorem onShelf_ofDeclarations (ds : List Declaration) (k : Shelf) :
    (ofDeclarations ds).onShelf k =
      (ds.filter fun d => d.shelf = k).map Declaration.protocol := by
  have hempty : empty.onShelf k = [] := by cases k <;> rfl
  rw [ofDeclarations, onShelf_foldl_declare, hempty, List.nil_append]

end Catalog

/-! ## The service -/

namespace Relay

def catalog? (r : Relay) : Option Catalog := r.manager.map Manager.catalog

theorem catalog?_updateRegistry (r : Relay) (f : Registry → Registry) :
    (r.updateRegistry f).catalog? = r.catalog? := by
  rw [catalog?, catalog?, updateRegistry, Option.map_map]
  rfl

theorem catalog?_forget (r : Relay) (id : ConnectionId) : (r.forget id).catalog? = r.catalog? := by
  unfold forget
  split
  · rfl
  · rw [catalog?, manager_reap]
    exact r.catalog?_updateRegistry _

theorem kept_catalog : Kept fun r s => s.catalog? = r.catalog? where
  refl := fun _ => rfl
  trans := fun h h' => h'.trans h
  enter := fun _ _ => rfl
  renounce := fun _ _ => rfl
  subscribe := fun r _ => r.catalog?_updateRegistry _
  unsubscribe := fun r _ => r.catalog?_updateRegistry _
  forget := catalog?_forget
  delistAll := fun r => r.catalog?_updateRegistry _
  delist := fun r id _ => (catalog?_forget _ id).trans (r.catalog?_updateRegistry _)

theorem catalog?_perform (r : Relay) (t : Task) : (r.perform t).catalog? = r.catalog? :=
  kept_catalog.perform_of_listing r t fun _ request k _ _ =>
    r.catalog?_updateRegistry (·.add request k)

/-- No deed changes what has been declared. -/
theorem catalog?_enact (r : Relay) (d : Deed) : (r.enact d).catalog? = r.catalog? := by
  cases hserved : r.served? d with
  | some served =>
    obtain ⟨t, a⟩ := served
    rw [enact_of_served hserved]
    exact catalog?_perform _ t
  | none =>
    cases hd : Deed.overrides d with
    | false => rw [catalog?, (aside_enact hserved hd).manager, ← catalog?]
    | true =>
      cases d with
      | stop => rfl
      | strike id =>
        simp only [enact]
        split
        · exact r.catalog?_updateRegistry _
        · rfl
      | _ => cases hd

theorem catalog?_foldl (r : Relay) (deeds : List Deed) :
    (deeds.foldl enact r).catalog? = r.catalog? := by
  induction deeds generalizing r with
  | nil => rfl
  | cons d rest ih => exact (ih (r.enact d)).trans (r.catalog?_enact d)

/-- The service tells of the catalog that it was made with, and of the registry as it is. -/
theorem exists_manager_runDeeds (c : Settings) (catalog : Catalog) (deeds : List Deed) :
    ∃ m, (runDeeds c catalog deeds).manager = some m ∧ m.catalog = catalog ∧
      m.registry = (runDeeds c catalog deeds).registry := by
  have hcatalog : (runDeeds c catalog deeds).catalog? = some catalog := catalog?_foldl _ deeds
  obtain ⟨m, hm, hsame⟩ := Option.map_eq_some_iff.mp hcatalog
  exact ⟨m, hm, hsame, by simp [registry, hm]⟩

/-- After any deeds the service tells three texts. The one for the connections is empty exactly if
none is listed, and otherwise its pieces, read as decimal integers, are the ids as they are listed:
ascending, and those that have entered and not left. The pieces of the one for the sources are the
brief identities of the audio, the video and the image protocols, each in the order of their
declaration, exactly if any is declared and the fields of all are without commas; the same goes for
the one for the sinks. -/
theorem evented_texts_read_back (c : Settings) (catalog : Catalog) (deeds : List Deed) :
    let r := runDeeds c catalog deeds
    (∃ m, r.manager = some m ∧
      (ConnectionManagerService.evented m.catalog m.registry).properties =
        [("SourceProtocolInfo", catalog.sourceInfo), ("SinkProtocolInfo", catalog.sinkInfo),
          ("CurrentConnectionIDs", r.registry.idList)]) ∧
    (r.registry.idList = "" ↔ r.registry.ids = []) ∧
    (r.registry.idList ≠ "" →
      (commaPieces r.registry.idList).map String.toInt? = r.registry.ids.map some) ∧
    r.registry.ids.Pairwise (· < ·) ∧
    (∃ log, History (runDeeds c catalog []) deeds log r ∧
      ∀ id, id ∈ r.registry.ids ↔ id ∈ entries log ∧ id ∉ departures log) ∧
    (commaPieces catalog.sourceInfo =
        (catalog.audio ++ catalog.video ++ catalog.image).map Protocol.briefIdentity ↔
      catalog.sources ≠ [] ∧ ∀ p ∈ catalog.sources, p.CommaFree) ∧
    (commaPieces catalog.sinkInfo = catalog.sinks.map Protocol.briefIdentity ↔
      catalog.sinks ≠ [] ∧ ∀ p ∈ catalog.sinks, p.CommaFree) ∧
    ∀ ds k, (Catalog.ofDeclarations ds).onShelf k =
      (ds.filter fun d => d.shelf = k).map Declaration.protocol := by
  intro r
  refine ⟨?_, r.registry.idList_eq_empty_iff, ?_, r.registry.ascending, ?_,
    Protocol.commaPieces_identities_iff catalog.sources,
    Protocol.commaPieces_identities_iff catalog.sinks, Catalog.onShelf_ofDeclarations⟩
  · obtain ⟨m, hm, rfl, hregistry⟩ := exists_manager_runDeeds c catalog deeds
    refine ⟨m, hm, ?_⟩
    rw [hregistry]
    rfl
  · intro htext
    exact Registry.read_idList fun hnone => htext (r.registry.idList_eq_empty_iff.mpr hnone)
  · obtain ⟨log, hlog⟩ := exists_history (runDeeds c catalog []) deeds
    refine ⟨log, hlog, fun id => ?_⟩
    have hids : id ∈ r.registry.ids ↔ _ := hlog.turns.mem_ids_iff id
    have hstart : id ∉ (runDeeds c catalog []).registry.table.ids := List.not_mem_nil
    simpa only [hstart, false_or] using hids

def oneOfThreeRemoved : List Deed :=
  [.own {} {}, .list ⟨{}, "m", "e", ""⟩ 0, .list ⟨{}, "n", "e", ""⟩ 0, .list ⟨{}, "m", "f", ""⟩ 0,
    .move (.remove 1)] ++ List.replicate 7 (.move .run)

/-- A video before an audio protocol that is declared twice, and one sink. -/
def declaredTwice : List Declaration :=
  [.video "MPEG_PS_PAL" Terms.videoMpeg "mpg" {} {} {}, .audio "MP3" Terms.audioMp3 "mp3" {} {},
    .audio "MP3" Terms.audioMp3 "mp3" {} {}, .sink (Protocol.image Terms.imagePng "" "png" 48 48)]

theorem two_ids_read_back :
    let catalog := Catalog.ofDeclarations declaredTwice
    let r := runDeeds {} catalog oneOfThreeRemoved
    r.registry.idList = "2,3" ∧
      (commaPieces r.registry.idList).map String.toInt? = [some 2, some 3] ∧
      commaPieces catalog.sourceInfo =
        ["http-get:*:audio/mpeg:DLNA.ORG_PN=MP3", "http-get:*:audio/mpeg:DLNA.ORG_PN=MP3",
          "http-get:*:video/mpeg:DLNA.ORG_PN=MPEG_PS_PAL"] ∧
      commaPieces catalog.sinkInfo = ["http-get:*:image/png:*"] := by
  intro catalog r
  have hids : r.registry.ids = [2, 3] := by decide +kernel
  have htext : r.registry.idList = "2,3" := by
    rw [Registry.idList, hids]
    decide +kernel
  obtain ⟨-, -, hread, -, -, hsources, hsinks, -⟩ :=
    evented_texts_read_back {} catalog oneOfThreeRemoved
  have hfree : ∀ p ∈ catalog.sources, p.CommaFree := by
    intro p hp
    rw [Protocol.commaFree_iff]
    revert p
    decide
  have hsinksFree : ∀ p ∈ catalog.sinks, p.CommaFree := by
    intro p hp
    rw [Protocol.commaFree_iff]
    revert p
    decide
  refine ⟨htext, ?_, ?_, ?_⟩
  · have hne : r.registry.idList ≠ "" := by
      rw [htext]
      decide
    rw [hread hne, hids]
    rfl
  · rw [hsources.mpr ⟨List.cons_ne_nil _ _, hfree⟩]
    decide +kernel
  · rw [hsinks.mpr ⟨List.cons_ne_nil _ _, hsinksFree⟩]
    decide +kernel

end Relay
end MediaRelay
