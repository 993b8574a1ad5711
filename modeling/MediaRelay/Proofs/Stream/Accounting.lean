import MediaRelay.Proofs.Stream.Fidelity
import MediaRelay.Proofs.Stream.JoinWindow
import Mathlib.Data.List.Induction

/-! # The accounts of a cursor

A source and a client each keep half of the account of what the client has read: the source the
offset up to which all is committed and the length of the span handed out last, the client that span
and how much of it is still pending. The spans that a client is handed lie one behind another in the
stream, and only the last of them can be uncommitted. Calls of the client commit it, whole, and
once; nothing that the producer or other clients do touches either half.
-/
namespace MediaRelay

/-- A span as it was handed to a client: the offset that it starts at, and its bytes. -/
structure Handout where
  start : Nat
  data : ByteArray

structure Handout.Fits (h : Handout) (z : Sizing) (stream : List UInt8) : Prop where
  nonempty : 0 < h.data.size
  size_le : h.data.size ≤ z.blockSize
  in_turn : h.start % z.capacity + h.data.size ≤ z.capacity
  bytes : h.data.data.toList = (stream.drop h.start).take h.data.size

theorem Handout.Fits.append {h : Handout} {z : Sizing} {stream : List UInt8}
    (hf : h.Fits z stream) (more : List UInt8) : h.Fits z (stream ++ more) := by
  have hlen := congrArg List.length hf.bytes
  have hsize : h.data.data.toList.length = h.data.size := rfl
  rw [hsize, List.length_take, List.length_drop] at hlen
  have hpos := hf.nonempty
  refine ⟨hf.nonempty, hf.size_le, hf.in_turn, ?_⟩
  rw [List.drop_append_of_le_length (by omega),
    List.take_append_of_le_length (by rw [List.length_drop]; omega)]
  exact hf.bytes

/-- Spans one behind another, from one offset to another. -/
def Tiles : Nat → List Handout → Nat → Prop
  | lo, [], hi => lo = hi
  | lo, h :: rest, hi => h.start = lo ∧ Tiles (lo + h.data.size) rest hi

theorem Tiles.snoc {spans : List Handout} {lo hi : Nat} (ht : Tiles lo spans hi)
    (data : ByteArray) : Tiles lo (spans ++ [⟨hi, data⟩]) (hi + data.size) := by
  induction spans generalizing lo with
  | nil =>
    cases ht
    exact ⟨rfl, rfl⟩
  | cons h rest ih => exact ⟨ht.1, ih ht.2⟩

namespace Client

def given (c : Client) (s : Source) : List Handout :=
  match c.stage, s.cursors.get? c.reader.cursor, s.fetch c.reader.cursor with
  | .waiting _, some cur, (.span data, _) => [⟨cur.offset, data⟩]
  | _, _, _ => []

theorem given_of_not_waiting {c : Client} (s : Source) (h : ∀ call, c.stage ≠ .waiting call) :
    c.given s = [] := by
  unfold given
  split
  · rename_i call cur data t hs _ _
    exact absurd hs (h call)
  · rfl

/-- The two halves of an account, with all spans handed out so far. -/
structure Books (c : Client) (cur : Cursor) (spans : List Handout) : Prop where
  tiles : Tiles 0 spans (cur.offset + cur.available)
  staged : (cur.available = 0 ∧ c.reader.pending = 0) ∨
    ∃ earlier, spans = earlier ++ [⟨cur.offset, c.reader.span⟩] ∧
      cur.available = c.reader.span.size
  settled : c.stage ≠ .leaving → c.reader.pending = 0 → cur.available = 0
  leaving : c.stage = .leaving → c.reader.pending = 0

theorem pending_take (c : Client) (call : Call) :
    (c.take call).reader.pending = c.reader.pending - call.amount c.reader.pending := by
  simp only [take, Reader.pending]
  omega

theorem pending_take_of_leaving {c : Client} {call : Call}
    (h : (c.take call).stage = .leaving) : (c.take call).reader.pending = 0 := by
  cases call with
  | fill => cases h
  | consume n =>
    by_cases hz : (c.take (.consume n)).reader.pending = 0
    · exact hz
    · exact absurd h (by simp only [take] at hz ⊢; simp [Call.leaves, hz])
  | read n =>
    by_cases hz : (c.take (.read n)).reader.pending = 0
    · exact hz
    · exact absurd h (by simp only [take] at hz ⊢; simp [Call.leaves, hz])
  | chunk => rw [pending_take, Call.amount, Nat.sub_self]

/-- A call after which nothing is pending gives the span back, unless nothing was pending before. -/
theorem pending_of_take {c : Client} {call : Call} (hs : (c.take call).stage ≠ .leaving)
    (hz : (c.take call).reader.pending = 0) : c.reader.pending = 0 := by
  cases call with
  | fill => exact hz
  | consume n => exact absurd (by simp only [take] at hz ⊢; simp [Call.leaves, hz]) hs
  | read n => exact absurd (by simp only [take] at hz ⊢; simp [Call.leaves, hz]) hs
  | chunk =>
    rcases Nat.eq_zero_or_pos c.reader.pending with hp | hp
    · exact hp
    · exact absurd (by simp [take, Call.leaves, Nat.ne_of_gt hp]) hs

namespace Books
variable {c : Client} {cur : Cursor} {spans : List Handout}

theorem pending_le (h : c.Books cur spans) : c.reader.pending ≤ cur.available := by
  rcases h.staged with ⟨_, hz⟩ | ⟨_, _, hsize⟩
  · omega
  · simp only [Reader.pending]
    omega

theorem take (h : c.Books cur spans) (hs : c.stage ≠ .leaving) (call : Call) :
    (c.take call).Books cur spans where
  tiles := h.tiles
  staged := by
    rcases h.staged with ⟨ha, hz⟩ | hlast
    · exact Or.inl ⟨ha, by rw [pending_take, hz, Nat.zero_sub]⟩
    · exact Or.inr hlast
  settled := fun hn hz => h.settled hs (pending_of_take hn hz)
  leaving := pending_take_of_leaving

theorem commit (h : c.Books cur spans) (hz : c.reader.pending = 0) (stage : Stage) :
    Books { c with stage := stage } ⟨cur.offset + cur.available, 0⟩ spans where
  tiles := h.tiles
  staged := Or.inl ⟨rfl, hz⟩
  settled := fun _ _ => rfl
  leaving := fun _ => hz

theorem handed (h : c.Books cur spans) (ha : cur.available = 0) {data : ByteArray}
    (hd : 0 < data.size) :
    (c.handed data).Books ⟨cur.offset, data.size⟩ (spans ++ [⟨cur.offset, data⟩]) where
  tiles := by
    have ht := h.tiles
    rw [ha, Nat.add_zero] at ht
    exact ht.snoc data
  staged := Or.inr ⟨spans, rfl, rfl⟩
  settled := by
    intro _ hz
    exact absurd hz (Nat.ne_of_gt hd)
  leaving := by
    intro hs
    cases hs

end Books

theorem fits_of_fetch {s t : Source} {stream : List UInt8} (hk : s.Keeps stream) {id : CursorId}
    {cur : Cursor} (hcur : s.cursors.get? id = some cur) {data : ByteArray}
    (hf : s.fetch id = (.span data, t)) :
    (Handout.mk cur.offset data).Fits s.sizing stream ∧
      t.cursors.get? id = some ⟨cur.offset, data.size⟩ := by
  rcases s.fetch_cases id with ⟨_, he⟩ | ⟨_, _, _, he⟩ | ⟨d, hd, hlt, he⟩
  · simp [hf] at he
  · rw [hf] at he
    cases hs : s.ended <;> simp [hs] at he
  · have hsame : d = cur := Option.some.inj (hd.symm.trans hcur)
    subst hsame
    rw [hf] at he
    simp only [Prod.mk.injEq, Fetch.span.injEq] at he
    obtain ⟨rfl, rfl⟩ := he
    have hfloor := (hk.cursor _ d hd).1
    have hbytes := hk.read_eq hfloor
    have hhigh := hk.high_eq
    have hmod := Nat.mod_lt d.offset (hk.capacity_pos (Nat.zero_lt_of_lt hlt))
    -- The span ends where the stream does, at the latest.
    have hsize : (s.ring.read (s.readSpan d.offset)).size = (s.readSpan d.offset).length := by
      have hlen := congrArg List.length hbytes
      rw [List.length_take, List.length_drop] at hlen
      have hle : (s.readSpan d.offset).length ≤ stream.length - d.offset := by
        simp only [Source.readSpan]
        omega
      rw [Nat.min_eq_left hle] at hlen
      exact hlen
    refine ⟨⟨hk.read_pos hfloor hlt, ?_, ?_, ?_⟩, ?_⟩
    · rw [hsize]
      exact Nat.min_le_right _ _
    · change d.offset % s.capacity + _ ≤ s.capacity
      rw [hsize]
      simp only [Source.readSpan]
      omega
    · rw [hsize]
      exact hbytes
    · change (s.cursors.modify _ _).get? id = _
      rw [Roster.get?_modify, if_pos rfl, hd, hsize]
      rfl

theorem fits_given {c : Client} {s : Source} {stream : List UInt8} (hk : s.Keeps stream) :
    ∀ h ∈ c.given s, h.Fits s.sizing stream := by
  intro h hh
  unfold given at hh
  split at hh
  · rename_i cur data t _ hcur hf
    rw [List.mem_singleton.mp hh]
    exact (fits_of_fetch hk hcur hf).1
  · cases hh

theorem Step.not_gone {c d : Client} {s t : Source} (hstep : Step c s d t) : c.stage ≠ .gone := by
  intro hg
  cases hstep <;> simp_all

/-- What a step of a client does to its account: it may commit the last span, whole. -/
structure Entered (c d : Client) (s t : Source) (cur next : Cursor) (spans : List Handout) :
    Prop where
  cursor : t.cursors.get? c.reader.cursor = some next
  books : d.Books next (spans ++ c.given s)
  offset : next.offset = cur.offset ∨ next.offset = cur.offset + cur.available

theorem Step.entered {c d : Client} {s t : Source} (hstep : Step c s d t) {stream : List UInt8}
    (hk : s.Keeps stream) {cur : Cursor} (hcur : s.cursors.get? c.reader.cursor = some cur)
    {spans : List Handout} (h : c.Books cur spans)
    (hw : ∀ call, c.stage = .waiting call → c.reader.pending = 0) (hg : d.stage ≠ .gone) :
    ∃ next, Entered c d s t cur next spans := by
  have hcommitted : (s.release c.reader.cursor).cursors.get? c.reader.cursor =
      some ⟨cur.offset + cur.available, 0⟩ := by
    rw [Source.get?_release, if_pos rfl, hcur]
    rfl
  have hnone : (∀ call, c.stage ≠ .waiting call) → spans ++ c.given s = spans := by
    intro hn
    rw [given_of_not_waiting s hn, List.append_nil]
  cases hstep with
  | serve call hs hp =>
    refine ⟨cur, hcur, ?_, Or.inl rfl⟩
    rw [hnone (by simp [hs])]
    exact h.take (by simp [hs]) call
  | ask call hs hp =>
    refine ⟨_, hcommitted, ?_, Or.inr rfl⟩
    rw [hnone (by simp [hs])]
    exact h.commit hp _
  | meetEnd call hs hf =>
    refine ⟨cur, hcur, ?_, Or.inl rfl⟩
    have hgiven : c.given s = [] := by simp [given, hs, hf]
    rw [hgiven, List.append_nil]
    exact h.take (by simp [hs]) call
  | hand call data _ hs hf =>
    obtain ⟨hfits, hnext⟩ := fits_of_fetch hk hcur hf
    refine ⟨_, hnext, ?_, Or.inl rfl⟩
    have hgiven : c.given s = [⟨cur.offset, data⟩] := by simp [given, hs, hf, hcur]
    have ha : cur.available = 0 := h.settled (by simp [hs]) (hw call hs)
    rw [hgiven]
    exact (h.handed ha hfits.nonempty).take (by simp [Client.handed]) call
  | giveBack hs =>
    refine ⟨_, hcommitted, ?_, Or.inr rfl⟩
    rw [hnone (by simp [hs])]
    exact h.commit (h.leaving hs) _
  | leave hs => exact absurd rfl hg

end Client

namespace Sharing

def given (x : Sharing) (id : CursorId) : Move → List Handout
  | .turn j t =>
    match x.clients.get? j with
    | none => []
    | some c => if j = id ∧ (c.step? x.source t).isSome then c.given x.source else []
  | _ => []

def handouts (id : CursorId) : Sharing → List Move → List Handout
  | _, [] => []
  | x, m :: rest => x.given id m ++ handouts id (x.move m) rest

theorem handouts_append (id : CursorId) (x : Sharing) (moves more : List Move) :
    handouts id x (moves ++ more) =
      handouts id x moves ++ handouts id (moves.foldl move x) more := by
  induction moves generalizing x with
  | nil => rfl
  | cons m rest ih =>
    simp only [List.cons_append, handouts, List.foldl_cons, ih, List.append_assoc]

theorem run_snoc (z : Sizing) (moves : List Move) (m : Move) :
    run z (moves ++ [m]) = (run z moves).move m := by
  rw [run, List.foldl_append]
  rfl

theorem handouts_snoc (id : CursorId) (z : Sizing) (moves : List Move) (m : Move) :
    handouts id (start z) (moves ++ [m]) =
      handouts id (start z) moves ++ (run z moves).given id m := by
  rw [handouts_append]
  exact congrArg _ (List.append_nil _)

/-- A move leaves a client and its cursor alone, or it is a step of the client. -/
theorem client_move {x : Sharing} (h : x.Sound) {id : CursorId} {c : Client}
    (hc : x.clients.get? id = some c) (m : Move) :
    ((x.move m).clients.get? id = some c ∧
      (x.move m).source.cursors.get? id = x.source.cursors.get? id ∧ x.given id m = []) ∨
    ∃ t d, m = .turn id t ∧ c.step? x.source t = some (d, (x.move m).source) ∧
      (x.move m).clients.get? id = some d ∧ x.given id m = c.given x.source := by
  cases m with
  | reserve =>
    left
    refine ⟨hc, ?_, rfl⟩
    simp only [move, Flow.act, Source.act, Source.reserve?]
    split <;> rfl
  | receive r =>
    exact Or.inl ⟨hc, congrArg (fun cs => cs.get? id) (x.source.receive_cursors r), rfl⟩
  | join =>
    left
    have hne : id ≠ x.source.nextCursor := Nat.ne_of_lt (h.owns id c hc).2
    simp only [move, Source.attach?]
    by_cases hz : x.source.floor = 0
    · rw [if_pos hz]
      exact ⟨by rw [Roster.get?_put, if_neg hne, hc], by rw [Roster.get?_put, if_neg hne], rfl⟩
    · rw [if_neg hz]
      exact ⟨hc, rfl, rfl⟩
  | turn j t =>
    cases hj : x.clients.get? j with
    | none =>
      have hmove : x.move (.turn j t) = x := by simp only [move, hj]
      rw [hmove]
      exact Or.inl ⟨hc, rfl, by simp only [given, hj]⟩
    | some e =>
      cases hs : e.step? x.source t with
      | none =>
        have hmove : x.move (.turn j t) = x := by simp only [move, hj, hs]
        rw [hmove]
        exact Or.inl ⟨hc, rfl, by simp [given, hj, hs]⟩
      | some p =>
        obtain ⟨d, s⟩ := p
        simp only [move, given, hj, hs]
        by_cases hid : j = id
        · subst hid
          have hsame : c = e := Option.some.inj (hc.symm.trans hj)
          subst hsame
          refine Or.inr ⟨t, d, rfl, hs, ?_, by simp⟩
          rw [Roster.get?_modify, if_pos rfl, hc]
          rfl
        · have hother : id ≠ e.reader.cursor := by
            rw [(h.owns j e hj).1]
            exact fun he => hid he.symm
          refine Or.inl ⟨?_, (Client.step?_inv hs).touches.others id hother, by simp [hid]⟩
          rw [Roster.get?_modify, if_neg fun he => hid he.symm, hc]

theorem client_of_move {x : Sharing} {id : CursorId} (hn : x.clients.get? id = none) (m : Move) :
    x.given id m = [] ∧ ∀ c, (x.move m).clients.get? id = some c →
      c = { reader := { cursor := id } } ∧ (x.move m).source.cursors.get? id = some {} := by
  have hnot : ∀ c, x.clients.get? id ≠ some c := by simp [hn]
  cases m with
  | reserve => exact ⟨rfl, fun c hc => absurd hc (hnot c)⟩
  | receive r => exact ⟨rfl, fun c hc => absurd hc (hnot c)⟩
  | join =>
    refine ⟨rfl, ?_⟩
    intro c hc
    simp only [move, Source.attach?] at hc ⊢
    by_cases hz : x.source.floor = 0
    · rw [if_pos hz] at hc ⊢
      rw [Roster.get?_put] at hc
      split at hc
      · rename_i hid
        cases hc
        subst hid
        exact ⟨rfl, by rw [Roster.get?_put, if_pos rfl]⟩
      · exact absurd hc (hnot c)
    · rw [if_neg hz] at hc
      exact absurd hc (hnot c)
  | turn j t =>
    cases hj : x.clients.get? j with
    | none =>
      have hmove : x.move (.turn j t) = x := by simp only [move, hj]
      rw [hmove]
      exact ⟨by simp only [given, hj], fun c hc => absurd hc (hnot c)⟩
    | some e =>
      have hid : j ≠ id := by
        rintro rfl
        exact hnot e hj
      refine ⟨by simp [given, hj, hid], ?_⟩
      intro c hc
      cases hs : e.step? x.source t with
      | none =>
        simp only [move, hj, hs] at hc
        exact absurd hc (hnot c)
      | some p =>
        simp only [move, hj, hs] at hc
        rw [Roster.get?_modify, if_neg fun he => hid he.symm] at hc
        exact absurd hc (hnot c)

theorem sizing_move (x : Sharing) (m : Move) : (x.move m).source.sizing = x.source.sizing := by
  rcases x.move_toFlow m with he | ⟨a, he⟩
  · rw [he]
  · rw [he]
    exact x.source.sizing_act a

theorem stream_move (x : Sharing) (m : Move) : ∃ more, (x.move m).stream = x.stream ++ more := by
  rcases x.move_toFlow m with he | ⟨a, he⟩
  · exact ⟨[], by rw [he, List.append_nil]⟩
  · rw [he]
    cases a with
    | receive r => exact ⟨_, rfl⟩
    | _ => exact ⟨[], (List.append_nil _).symm⟩

/-- The account of a client with the spans it was handed. -/
structure Accounts (x : Sharing) (id : CursorId) (spans : List Handout) : Prop where
  fits : ∀ h ∈ spans, h.Fits x.source.sizing x.stream
  unopened : x.clients.get? id = none → spans = []
  books : ∀ c, x.clients.get? id = some c → c.stage ≠ .gone →
    ∃ cur, x.source.cursors.get? id = some cur ∧ c.Books cur spans

theorem Accounts.move {x : Sharing} {id : CursorId} {spans : List Handout}
    (h : x.Accounts id spans) (hs : x.Sound) (m : Move) :
    (x.move m).Accounts id (spans ++ x.given id m) := by
  obtain ⟨more, hstream⟩ := x.stream_move m
  have hold : ∀ g ∈ spans, g.Fits (x.move m).source.sizing (x.move m).stream := by
    intro g hg
    rw [sizing_move, hstream]
    exact (h.fits g hg).append more
  cases hc : x.clients.get? id with
  | none =>
    obtain ⟨hgiven, hnew⟩ := client_of_move hc m
    rw [hgiven, List.append_nil]
    refine ⟨hold, fun _ => h.unopened hc, ?_⟩
    intro c hcm _
    obtain ⟨rfl, hcur⟩ := hnew c hcm
    refine ⟨{}, hcur, ?_⟩
    rw [h.unopened hc]
    exact ⟨rfl, Or.inl ⟨rfl, rfl⟩, fun _ _ => rfl, fun _ => rfl⟩
  | some c =>
    rcases client_move hs hc m with ⟨hcm, hcur, hgiven⟩ | ⟨t, d, _, hstep, hdm, hgiven⟩
    · rw [hgiven, List.append_nil]
      refine ⟨hold, fun hn => absurd (hcm.symm.trans hn) (by simp), ?_⟩
      intro e he hg
      cases hcm.symm.trans he
      rw [hcur]
      exact h.books c hc hg
    · have hinv := Client.step?_inv hstep
      have hkey := (hs.owns id c hc).1
      rw [hgiven]
      refine ⟨?_, fun hn => absurd (hdm.symm.trans hn) (by simp), ?_⟩
      · intro g hg
        rcases List.mem_append.mp hg with hg | hg
        · exact hold g hg
        · rw [sizing_move, hstream]
          exact (Client.fits_given hs.keeps g hg).append more
      · intro e he hg
        cases hdm.symm.trans he
        obtain ⟨cur, hcur, hbooks⟩ := h.books c hc hinv.not_gone
        obtain ⟨next, hnext⟩ := hinv.entered hs.keeps (hkey ▸ hcur) hbooks
          (fun call hw => ((hs.faithful id c hc).waits call hw).1) hg
        exact ⟨next, hkey ▸ hnext.cursor, hnext.books⟩

theorem accounts_run (z : Sizing) (moves : List Move) (id : CursorId) :
    (run z moves).Accounts id (handouts id (start z) moves) := by
  induction moves using List.reverseRecOn with
  | nil => exact ⟨by simp [handouts], fun _ => rfl, by simp [run, start]⟩
  | append_singleton moves m ih =>
    rw [run_snoc, handouts_snoc]
    exact ih.move (sound_run z moves) m

theorem sizing_run (z : Sizing) (moves : List Move) : (run z moves).source.sizing = z.clamped := by
  obtain ⟨actions, he⟩ := run_toFlow z moves
  rw [he]
  exact Flow.sizing_run z actions

/-- What is consumed and what is pending together have the length of what was handed out. -/
theorem length_received {x : Sharing} (h : x.Sound) {id : CursorId} {c : Client}
    (hc : x.clients.get? id = some c) (hg : c.stage ≠ .gone) {cur : Cursor}
    (hcur : x.source.cursors.get? id = some cur) :
    c.received.length + c.reader.pending = cur.offset + cur.available := by
  obtain ⟨own, hown, heq⟩ := (h.faithful id c hc).tracks hg
  rw [(h.owns id c hc).1, hcur] at hown
  cases hown
  have hle := (h.keeps.cursor id cur hcur).2
  rw [h.keeps.high_eq] at hle
  have hrest : c.reader.rest.data.toList.length = c.reader.pending := by
    simp [Reader.rest, Reader.pending]
  have hlen := congrArg List.length heq
  rw [List.length_append, hrest, List.length_take, Nat.min_eq_left hle] at hlen
  exact hlen

/-- The position of a client changes only in a step of its own, by the span that is handed out. -/
theorem position_move {x : Sharing} (hs : x.Sound) {id : CursorId} {spans : List Handout}
    (h : x.Accounts id spans) {c d : Client} (hc : x.clients.get? id = some c) {cur : Cursor}
    (hcur : x.source.cursors.get? id = some cur) (m : Move)
    (hd : (x.move m).clients.get? id = some d) (hg : d.stage ≠ .gone) :
    c.stage ≠ .gone ∧ ∃ q, (x.move m).source.position? id = some q ∧
      (q = cur.offset ∨ (∃ t, m = .turn id t) ∧ q = cur.offset + cur.available) := by
  rcases client_move hs hc m with ⟨hcm, hsame, _⟩ | ⟨t, e, rfl, hstep, hem, _⟩
  · cases hcm.symm.trans hd
    refine ⟨hg, cur.offset, ?_, Or.inl rfl⟩
    rw [Source.position?, hsame, hcur]
    rfl
  · cases hem.symm.trans hd
    have hinv := Client.step?_inv hstep
    have hkey := (hs.owns id c hc).1
    obtain ⟨own, hown, hbooks⟩ := h.books c hc hinv.not_gone
    cases hcur.symm.trans hown
    obtain ⟨next, hnext⟩ := hinv.entered hs.keeps (hkey ▸ hcur) hbooks
      (fun call hw => ((hs.faithful id c hc).waits call hw).1) hg
    refine ⟨hinv.not_gone, next.offset, ?_, ?_⟩
    · have hthere := hnext.cursor
      rw [hkey] at hthere
      rw [Source.position?, hthere]
      rfl
    · rcases hnext.offset with he | he
      · exact Or.inl he
      · exact Or.inr ⟨⟨t, rfl⟩, he⟩

theorem position_le (z : Sizing) (moves more : List Move) {id : CursorId} {c : Client}
    (hc : (run z moves).clients.get? id = some c) {p : Nat}
    (hp : (run z moves).source.position? id = some p) :
    ∃ d, (run z (moves ++ more)).clients.get? id = some d ∧ (d.stage ≠ .gone →
      ∃ q, (run z (moves ++ more)).source.position? id = some q ∧ p ≤ q) := by
  induction more using List.reverseRecOn with
  | nil =>
    rw [List.append_nil]
    exact ⟨c, hc, fun _ => ⟨p, hp, Nat.le_refl _⟩⟩
  | append_singleton more m ih =>
    obtain ⟨d, hd, hle⟩ := ih
    have hs := sound_run z (moves ++ more)
    rw [← List.append_assoc, run_snoc]
    have hthere : ∃ e, ((run z (moves ++ more)).move m).clients.get? id = some e := by
      rcases client_move hs hd m with ⟨he, _⟩ | ⟨_, e, _, _, he, _⟩
      · exact ⟨d, he⟩
      · exact ⟨e, he⟩
    obtain ⟨e, he⟩ := hthere
    refine ⟨e, he, fun hg => ?_⟩
    have hdg : d.stage ≠ .gone := by
      rcases client_move hs hd m with ⟨hsame, _⟩ | ⟨_, _, _, hstep, _⟩
      · cases hsame.symm.trans he
        exact hg
      · exact (Client.step?_inv hstep).not_gone
    obtain ⟨q, hq, hpq⟩ := hle hdg
    obtain ⟨cur, hcur, _⟩ := (accounts_run z (moves ++ more) id).books d hd hdg
    rw [Source.position?, hcur] at hq
    cases hq
    obtain ⟨_, r, hr, hmoved⟩ :=
      position_move hs (accounts_run z (moves ++ more) id) hd hcur m he hg
    refine ⟨r, hr, Nat.le_trans hpq ?_⟩
    rcases hmoved with rfl | ⟨_, rfl⟩
    · exact Nat.le_refl _
    · exact Nat.le_add_right _ _

theorem step?_fill_of_pending {c : Client} (hs : c.stage = .idle) (hp : c.reader.pending ≠ 0)
    (s : Source) : ∃ d, c.step? s (.call .fill) = some (d, s) ∧ d.reader = c.reader ∧
      d.stage = .idle := by
  refine ⟨c.take .fill, ?_, rfl, rfl⟩
  simp [Client.step?, Client.begin, hs, hp]

theorem staged_until_consumed (z : Sizing) (moves more : List Move) {id : CursorId} {c : Client}
    (hc : (run z moves).clients.get? id = some c) (hs : c.stage = .idle)
    (hp : c.reader.pending ≠ 0) (hmore : ∀ t, .turn id t ∈ more → t = .call .fill) :
    ∃ d, (run z (moves ++ more)).clients.get? id = some d ∧ d.reader = c.reader ∧
      d.stage = .idle := by
  induction more using List.reverseRecOn with
  | nil =>
    rw [List.append_nil]
    exact ⟨c, hc, rfl, hs⟩
  | append_singleton more m ih =>
    obtain ⟨d, hd, hreader, hidle⟩ := ih fun t ht => hmore t (List.mem_append_left _ ht)
    rw [← List.append_assoc, run_snoc]
    rcases client_move (sound_run z (moves ++ more)) hd m with
      ⟨hsame, _⟩ | ⟨t, e, rfl, hstep, he, _⟩
    · exact ⟨d, hsame, hreader, hidle⟩
    · cases hmore t (List.mem_append_right _ (List.mem_singleton_self _))
      obtain ⟨f, hf, hfr, hfs⟩ :=
        step?_fill_of_pending hidle (hreader ▸ hp) (run z (moves ++ more)).source
      have hef : e = f := congrArg Prod.fst (Option.some.inj (hstep.symm.trans hf))
      rw [← hef] at hfr hfs
      exact ⟨e, he, hfr.trans hreader, hfs⟩

/-- The account of every client, after any moves of the producer and of all clients. The spans that
it was handed hold bytes, at most a block each, and do not go round the end of the ring. They lie
one behind another from the start of the stream up to the end of what is available; the position is
where the last of them starts, until that one is committed, whole. What is pending is part of what
is available, what is consumed is the rest of all that was handed out, and between two calls nothing
is available where nothing is pending. The position never goes back, and moves with the client's own
steps alone. As long as something is pending, asking for bytes again and again, whatever others do
in between, brings the same bytes and changes nothing. -/
theorem cursor_accounts (z : Sizing) (moves : List Move) (id : CursorId) :
    let x := run z moves
    let spans := handouts id (start z) moves
    (∀ h ∈ spans, h.Fits z.clamped x.stream) ∧
    ∀ c, x.clients.get? id = some c → c.stage ≠ .gone → ∃ cur,
      x.source.cursors.get? id = some cur ∧ x.source.position? id = some cur.offset ∧
      c.reader.pending ≤ cur.available ∧
      (c.stage ≠ .leaving → c.reader.pending = 0 → cur.available = 0) ∧
      c.received.length + c.reader.pending = cur.offset + cur.available ∧
      Tiles 0 spans (cur.offset + cur.available) ∧
      (cur.available ≠ 0 → ∃ earlier, spans = earlier ++ [⟨cur.offset, c.reader.span⟩] ∧
        cur.available = c.reader.span.size) ∧
      (∀ m d, (x.move m).clients.get? id = some d → d.stage ≠ .gone →
        ∃ q, (x.move m).source.position? id = some q ∧
          (q = cur.offset ∨ (∃ t, m = .turn id t) ∧ q = cur.offset + cur.available)) ∧
      (∀ more d, (run z (moves ++ more)).clients.get? id = some d → d.stage ≠ .gone →
        ∃ q, (run z (moves ++ more)).source.position? id = some q ∧ cur.offset ≤ q) ∧
      (c.stage = .idle → c.reader.pending ≠ 0 →
        ∀ more, (∀ t, .turn id t ∈ more → t = .call .fill) →
          let y := run z (moves ++ more)
          ∃ d, y.clients.get? id = some d ∧ d.reader = c.reader ∧
            c.reader.fill? y.source = some (c.reader, y.source) ∧
            (y.move (.turn id (.call .fill))).source = y.source) := by
  intro x spans
  have hsound : x.Sound := sound_run z moves
  have haccounts : x.Accounts id spans := accounts_run z moves id
  refine ⟨fun h hh => (sizing_run z moves) ▸ haccounts.fits h hh, ?_⟩
  intro c hc hg
  obtain ⟨cur, hcur, hbooks⟩ := haccounts.books c hc hg
  have hposition : x.source.position? id = some cur.offset := by
    rw [Source.position?, hcur]
    rfl
  refine ⟨cur, hcur, hposition, hbooks.pending_le, hbooks.settled,
    length_received hsound hc hg hcur, hbooks.tiles, ?_, ?_, ?_, ?_⟩
  · intro hne
    rcases hbooks.staged with ⟨ha, _⟩ | hlast
    · exact absurd ha hne
    · exact hlast
  · intro m d hd hdg
    exact (position_move hsound haccounts hc hcur m hd hdg).2
  · intro more d hd hdg
    obtain ⟨e, he, hle⟩ := position_le z moves more hc hposition
    cases he.symm.trans hd
    exact hle hdg
  · intro hidle hp more hmore y
    obtain ⟨d, hd, hreader, hs⟩ := staged_until_consumed z moves more hc hidle hp hmore
    have hthere : y.clients.get? id = some d := hd
    refine ⟨d, hthere, hreader, ?_, ?_⟩
    · rw [Reader.fill?, if_neg hp]
    · obtain ⟨e, he, _⟩ := step?_fill_of_pending hs (hreader ▸ hp) y.source
      simp only [move, hthere, he]

-- One byte of the first span, its rest, and the second span: each span is committed once.
example :
    let moves : List Move := [.join, .reserve, .receive (.bytes ⟨#[1, 2]⟩), .reserve,
      .receive (.bytes ⟨#[3]⟩), .turn 1 (.call (.read 1)), .turn 1 .proceed, .turn 1 (.call .chunk),
      .turn 1 .proceed, .turn 1 (.call (.read 9)), .turn 1 .proceed, .turn 1 .proceed]
    (run ⟨2, 4⟩ moves).source.position? 1 = some 3 ∧
      ((handouts 1 (start ⟨2, 4⟩) moves).map fun h => (h.start, h.data.data.toList)) =
        [(0, [1, 2]), (2, [3])] := by
  decide +kernel

end Sharing
end MediaRelay
