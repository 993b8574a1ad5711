import MediaRelay.Proofs.Stream.Residence
import MediaRelay.Proofs.Stream.Sharing

/-! # What the clients of a source receive

Each client receives the stream from its first byte on, without a gap or a repetition, and is told
of an end only after all of it. The reason is one equation for each client: what it has consumed,
followed by what it has pending, is the stream up to the end of what its cursor was handed. Its own
calls only move bytes from one side of this to another, or hand out what comes next in the ring;
the producer and the other clients touch neither its cursor nor the part of the stream before it.
-/
namespace MediaRelay

namespace Source

/-- Nothing has changed that would concern another cursor. -/
structure Touches (s t : Source) (id : CursorId) : Prop where
  ended : t.ended = s.ended
  nextCursor : t.nextCursor = s.nextCursor
  others : ∀ j, j ≠ id → t.cursors.get? j = s.cursors.get? j

theorem get?_release (s : Source) (id j : CursorId) :
    (s.release id).cursors.get? j =
      if j = id then (s.cursors.get? j).map fun c => ⟨c.offset + c.available, 0⟩
      else s.cursors.get? j := by
  simp only [release, evict_cursors, commit, Roster.get?_modify]

theorem touches_release (s : Source) (id : CursorId) : s.Touches (s.release id) id where
  ended := by simp [release, commit]
  nextCursor := by simp [release, commit]
  others := by
    intro j hj
    rw [get?_release, if_neg hj]

theorem touches_fetch (s : Source) (id : CursorId) : s.Touches (s.fetch id).2 id := by
  rcases s.fetch_cases id with ⟨_, he⟩ | ⟨_, _, _, he⟩ | ⟨_, _, _, he⟩ <;> rw [he]
  · exact ⟨rfl, rfl, fun _ _ => rfl⟩
  · exact ⟨rfl, rfl, fun _ _ => rfl⟩
  · refine ⟨rfl, rfl, ?_⟩
    intro j hj
    rw [Roster.get?_modify, if_neg hj]

theorem touches_detach (s : Source) (id : CursorId) : s.Touches (s.detach id) id := by
  unfold detach
  split
  · refine ⟨by simp, by simp, ?_⟩
    intro j hj
    rw [evict_cursors, Roster.get?_erase, if_neg hj]
  · exact ⟨rfl, rfl, fun _ _ => rfl⟩

namespace Keeps
variable {s : Source} {stream : List UInt8}

theorem receive_of_ended (h : s.Keeps stream) (he : s.ended = true) (r : Reading) :
    (s.receive r).ended = true ∧ s.intake r = [] := by
  rcases s.receive_cases r with ⟨hr, hi⟩ | ⟨hr, hi⟩ | ⟨span, _, hs, _⟩
  · exact ⟨(congrArg ended hr).trans he, hi⟩
  · exact ⟨congrArg ended hr, hi⟩
  · rw [(h.reserved span hs).2.2] at he
    cases he

theorem fetch_eq_done (h : s.Keeps stream) {id : CursorId} {c : Cursor}
    (hc : s.cursors.get? id = some c) (hd : (s.fetch id).1 = .done) :
    s.ended = true ∧ c.offset = s.high := by
  have hle := h.cursor id c hc
  rcases s.fetch_cases id with ⟨hn, _⟩ | ⟨d, hg, hge, he⟩ | ⟨_, _, _, he⟩
  · rw [hn] at hc
    cases hc
  · have hsame : d = c := Option.some.inj (hg.symm.trans hc)
    subst hsame
    rw [he] at hd
    cases hs : s.ended with
    | false => simp [hs] at hd
    | true => exact ⟨rfl, by omega⟩
  · rw [he] at hd
    cases hd

theorem read_pos (h : s.Keeps stream) {o : Nat} (hf : s.floor ≤ o) (ho : o < s.high) :
    0 < (s.ring.read (s.readSpan o)).size := by
  have hb := h.block_pos
  have hlt := Nat.mod_lt o (h.capacity_pos (Nat.zero_lt_of_lt ho))
  have hhigh := h.high_eq
  have hlen : (s.ring.read (s.readSpan o)).size =
      min (s.readSpan o).length (stream.length - o) := by
    have hl := congrArg List.length (h.read_eq hf)
    simpa using hl
  rw [hlen]
  simp only [readSpan]
  omega

end Keeps
end Source

namespace Client

theorem Step.touches {c d : Client} {s t : Source} (h : Step c s d t) :
    s.Touches t c.reader.cursor := by
  rcases h.source with rfl | ⟨a, ha, rfl⟩
  · exact ⟨rfl, rfl, fun _ _ => rfl⟩
  · simp only [List.mem_cons, List.not_mem_nil, or_false] at ha
    rcases ha with rfl | rfl | rfl
    · exact s.touches_release _
    · exact s.touches_fetch _
    · exact s.touches_detach _

/-- What a client has consumed and has pending is all that its cursor was ever handed. -/
def Tracks (c : Client) (s : Source) (stream : List UInt8) : Prop :=
  ∃ cur, s.cursors.get? c.reader.cursor = some cur ∧
    c.received ++ c.reader.rest.data.toList = stream.take (cur.offset + cur.available)

structure Faithful (c : Client) (s : Source) (stream : List UInt8) : Prop where
  prefixed : c.received <+: stream
  ends : ∀ a ∈ c.replies, a.isEnd = true → s.ended = true ∧ c.received = stream
  last : c.replies.Pairwise fun a b => a.isEnd = true → b.data.size = 0
  tracks : c.stage ≠ .gone → c.Tracks s stream
  waits : ∀ call, c.stage = .waiting call → c.reader.pending = 0 ∧
    ∀ cur, s.cursors.get? c.reader.cursor = some cur → cur.available = 0

theorem received_take (c : Client) (call : Call) :
    (c.take call).received = c.received ++ (c.portion call).data.toList := by
  simp [received, take]

/-- Taking moves bytes from what is pending to what is consumed. -/
theorem received_take_append_rest (c : Client) (call : Call) :
    (c.take call).received ++ (c.take call).reader.rest.data.toList =
      c.received ++ c.reader.rest.data.toList := by
  have hle := call.amount_le c.reader.pending
  rw [received_take, List.append_assoc]
  congr 1
  simp only [take, portion, Reader.rest, ByteArray.data_extract, ← Array.toList_append,
    Array.extract_append_extract]
  simp only [Reader.pending] at hle ⊢
  congr 1
  rcases Nat.le_total c.reader.span.size c.reader.taken with hover | hin
  · rw [Array.extract_empty_of_size_le_start hover, Array.extract_empty_of_size_le_start]
    change c.reader.span.size ≤ _
    omega
  · congr 1 <;> omega

theorem rest_of_pending {r : Reader} (h : r.pending = 0) : r.rest.data.toList = [] := by
  have hle : r.span.size ≤ r.taken := Nat.le_of_sub_eq_zero h
  simp [Reader.rest, Array.extract_empty_of_size_le_start hle]

theorem pending_of_isEnd (c : Client) {call : Call}
    (h : Reply.isEnd ⟨call, c.portion call⟩ = true) :
    call.insists = true ∧ c.reader.pending = 0 := by
  have hle := call.amount_le c.reader.pending
  simp only [Reply.isEnd, portion, Bool.and_eq_true, decide_eq_true_eq,
    ByteArray.size_extract] at h
  refine ⟨h.1, Call.amount_of_insists h.1 ?_⟩
  have hz := h.2
  simp only [Reader.pending] at hle hz ⊢
  omega

namespace Faithful
variable {c : Client} {s : Source} {stream : List UInt8}

theorem received_take_of_all (h : c.Faithful s stream) (hg : c.stage ≠ .gone) (call : Call)
    (hall : c.received = stream) :
    c.portion call = ByteArray.empty ∧ (c.take call).received = stream := by
  obtain ⟨cur, _, heq⟩ := h.tracks hg
  have hrest := c.received_take_append_rest call
  rw [heq, received_take, hall, List.append_assoc] at hrest
  have hlen := congrArg List.length hrest
  simp only [List.length_append, List.length_take] at hlen
  have hnil : (c.portion call).data.toList = [] := List.eq_nil_of_length_eq_zero (by omega)
  constructor
  · exact ByteArray.ext (Array.toList_eq_nil_iff.mp hnil)
  · rw [received_take, hnil, List.append_nil, hall]

theorem take (h : c.Faithful s stream) (hg : c.stage ≠ .gone) (call : Call)
    (hend : call.insists = true → c.reader.pending = 0 → s.ended = true ∧ c.received = stream) :
    (c.take call).Faithful s stream := by
  obtain ⟨cur, hcur, heq⟩ := h.tracks hg
  have hrest := (c.received_take_append_rest call).trans heq
  refine
    { prefixed := ?_
      ends := ?_
      last := ?_
      tracks := fun _ => ⟨cur, hcur, hrest⟩
      waits := ?_ }
  · exact (List.prefix_append _ _).trans (hrest ▸ List.take_prefix _ _)
  · intro a ha he
    have hall : s.ended = true ∧ c.received = stream := by
      rcases List.mem_append.mp ha with hold | hnew
      · exact h.ends a hold he
      · rw [List.mem_singleton.mp hnew] at he
        obtain ⟨hi, hp⟩ := c.pending_of_isEnd he
        exact hend hi hp
    exact ⟨hall.1, (h.received_take_of_all hg call hall.2).2⟩
  · refine List.pairwise_append.mpr ⟨h.last, List.pairwise_singleton _ _, ?_⟩
    intro a ha b hb he
    rw [List.mem_singleton.mp hb]
    simp only [(h.received_take_of_all hg call (h.ends a ha he).2).1]
    rfl
  · intro other hw
    rcases c.take_stage call with hi | hl
    · rw [hi] at hw
      cases hw
    · rw [hl] at hw
      cases hw

theorem others (h : c.Faithful s stream) (hk : s.Keeps stream) {t : Source} {more : List UInt8}
    (hended : s.ended = true → t.ended = true ∧ more = [])
    (hcursor : t.cursors.get? c.reader.cursor = s.cursors.get? c.reader.cursor) :
    c.Faithful t (stream ++ more) where
  prefixed := h.prefixed.trans (List.prefix_append _ _)
  ends := by
    intro a ha he
    obtain ⟨hs, hr⟩ := h.ends a ha he
    obtain ⟨ht, rfl⟩ := hended hs
    exact ⟨ht, by rw [hr, List.append_nil]⟩
  last := h.last
  tracks := by
    intro hg
    obtain ⟨cur, hcur, heq⟩ := h.tracks hg
    have hle := (hk.cursor _ cur hcur).2
    rw [hk.high_eq] at hle
    exact ⟨cur, hcursor.trans hcur, by rw [heq, List.take_append_of_le_length hle]⟩
  waits := by
    intro call hw
    obtain ⟨hp, hc⟩ := h.waits call hw
    exact ⟨hp, fun cur ht => hc cur (hcursor ▸ ht)⟩

theorem tracks_release (h : c.Tracks s stream) : c.Tracks (s.release c.reader.cursor) stream := by
  obtain ⟨cur, hcur, heq⟩ := h
  refine ⟨⟨cur.offset + cur.available, 0⟩, ?_, heq⟩
  rw [Source.get?_release, if_pos rfl, hcur]
  rfl

theorem release (h : c.Faithful s stream) (hg : c.stage ≠ .gone) {stage : Stage}
    (hw : ∀ call, stage = .waiting call → c.reader.pending = 0) :
    Faithful { c with stage := stage } (s.release c.reader.cursor) stream where
  prefixed := h.prefixed
  ends := by
    intro a ha he
    rw [(s.touches_release c.reader.cursor).ended]
    exact h.ends a ha he
  last := h.last
  tracks := fun _ => tracks_release (h.tracks hg)
  waits := by
    intro call hs
    refine ⟨hw call hs, ?_⟩
    intro cur hcur
    change (s.release c.reader.cursor).cursors.get? c.reader.cursor = some cur at hcur
    rw [Source.get?_release, if_pos rfl] at hcur
    obtain ⟨_, _, rfl⟩ := Option.map_eq_some_iff.mp hcur
    rfl

/-- The next span follows what is consumed without a gap, and brings something. -/
theorem handed (h : c.Faithful s stream) (hk : s.Keeps stream) {call : Call}
    (hw : c.stage = .waiting call) {data : ByteArray} {t : Source}
    (hf : s.fetch c.reader.cursor = (.span data, t)) :
    (c.handed data).Faithful t stream ∧ (c.handed data).reader.pending ≠ 0 := by
  obtain ⟨hp, hcommitted⟩ := h.waits call hw
  obtain ⟨cur, hcur, heq⟩ := h.tracks (by simp [hw])
  rcases s.fetch_cases c.reader.cursor with ⟨_, he⟩ | ⟨_, _, _, he⟩ | ⟨d, hd, hlt, he⟩
  · simp [hf] at he
  · rw [hf] at he
    cases hs : s.ended <;> simp [hs] at he
  · have hsame : d = cur := Option.some.inj (hd.symm.trans hcur)
    subst hsame
    have hfloor := (hk.cursor _ d hd).1
    rw [hf] at he
    simp only [Prod.mk.injEq, Fetch.span.injEq] at he
    obtain ⟨rfl, rfl⟩ := he
    constructor
    · refine ⟨h.prefixed, h.ends, h.last, ?_, ?_⟩
      · intro _
        refine ⟨⟨d.offset, (s.readSpan d.offset).length⟩, ?_, ?_⟩
        · change (s.cursors.modify _ _).get? c.reader.cursor = _
          rw [Roster.get?_modify, if_pos rfl, hd]
          rfl
        · rw [rest_of_pending hp, List.append_nil, hcommitted d hd, Nat.add_zero] at heq
          rw [List.take_add, ← heq, ← hk.read_eq hfloor]
          simp only [Client.handed, Reader.rest, ByteArray.extract_zero_size]
          rfl
      · intro call hw
        cases hw
    · have hpos := hk.read_pos hfloor hlt
      simp only [Client.handed, Reader.pending]
      omega

theorem step (h : c.Faithful s stream) (hk : s.Keeps stream) {d : Client} {t : Source}
    (hstep : Step c s d t) : d.Faithful t stream := by
  cases hstep with
  | serve call hs hp =>
    refine h.take (by simp [hs]) call ?_
    intro hi hz
    exact absurd hz (hp (call.fills_of_insists hi))
  | ask call hs hp => exact h.release (by simp [hs]) fun _ _ => hp
  | meetEnd call hs hf =>
    obtain ⟨hp, hcommitted⟩ := h.waits call hs
    obtain ⟨cur, hcur, heq⟩ := h.tracks (by simp [hs])
    refine h.take (by simp [hs]) call fun _ _ => ?_
    obtain ⟨hend, hhigh⟩ := hk.fetch_eq_done hcur (by rw [hf])
    refine ⟨hend, ?_⟩
    rw [rest_of_pending hp, List.append_nil, hcommitted cur hcur, Nat.add_zero, hhigh, hk.high_eq,
      List.take_length] at heq
    exact heq
  | hand call data t hs hf =>
    obtain ⟨hhanded, hpos⟩ := h.handed hk hs hf
    exact hhanded.take (by simp [Client.handed]) call fun _ hz => absurd hz hpos
  | giveBack hs =>
    refine h.release (by simp [hs]) ?_
    intro call hw
    cases hw
  | leave hs =>
    refine ⟨h.prefixed, ?_, h.last, fun hg => absurd rfl hg, ?_⟩
    · intro a ha he
      rw [(s.touches_detach c.reader.cursor).ended]
      exact h.ends a ha he
    · intro call hw
      cases hw

theorem fill?_of_all (h : c.Faithful s stream) (hk : s.Keeps stream) (hg : c.stage ≠ .gone)
    (hend : s.ended = true) (hall : c.received = stream) :
    c.reader.pending = 0 ∧
      c.reader.fill? s = some (c.reader, s.release c.reader.cursor) := by
  obtain ⟨cur, hcur, heq⟩ := h.tracks hg
  have hsize : c.reader.rest.data.toList.length = c.reader.pending := by
    simp [Reader.rest, Reader.pending]
  have hlen := congrArg List.length heq
  rw [hall, List.length_append, List.length_take, hsize] at hlen
  have hp : c.reader.pending = 0 := by omega
  refine ⟨hp, ?_⟩
  have hcommitted : (s.release c.reader.cursor).cursors.get? c.reader.cursor =
      some ⟨cur.offset + cur.available, 0⟩ := by
    rw [Source.get?_release, if_pos rfl, hcur]
    rfl
  have hclosed := (s.touches_release c.reader.cursor).ended.trans hend
  have hhigh := (hk.release c.reader.cursor).high_eq
  simp only [Reader.fill?, hp, if_true, Source.next]
  rcases (s.release c.reader.cursor).fetch_cases c.reader.cursor with
    ⟨_, he⟩ | ⟨_, _, _, he⟩ | ⟨d, hd, hlt, _⟩
  · rw [he]
  · rw [he, hclosed]
    rfl
  · rw [hcommitted] at hd
    cases hd
    change cur.offset + cur.available < _ at hlt
    omega

/-- Every further call of a client that has everything comes to nothing, at once. -/
theorem calls_of_all (h : c.Faithful s stream) (hk : s.Keeps stream) (hg : c.stage ≠ .gone)
    (hend : s.ended = true) (hall : c.received = stream) :
    (c.reader.chunk? s).map Prod.fst = some none ∧
      ∀ n, (c.reader.read? n s).map Prod.fst = some ByteArray.empty := by
  obtain ⟨hp, hfill⟩ := h.fill?_of_all hk hg hend hall
  constructor
  · simp only [Reader.chunk?, hfill, hp, if_true, Option.map_some]
  · intro n
    simp only [Reader.read?, hfill, hp, Nat.min_zero, Option.map_some, Nat.add_zero]
    have hnil : c.reader.span.data.extract c.reader.taken c.reader.taken = #[] :=
      Array.extract_empty_of_stop_le_start (Nat.le_refl _)
    exact congrArg some (ByteArray.ext (by rw [ByteArray.data_extract, hnil]; rfl))

end Faithful
end Client

namespace Sharing

theorem keeps_move {x : Sharing} (h : x.source.Keeps x.stream) (m : Move) :
    (x.move m).source.Keeps (x.move m).stream := by
  rcases x.move_toFlow m with he | ⟨a, he⟩
  · rw [he]
    exact h
  · rw [he]
    exact Flow.keeps_act h a

structure Sound (x : Sharing) : Prop where
  keeps : x.source.Keeps x.stream
  owns : ∀ id c, x.clients.get? id = some c →
    c.reader.cursor = id ∧ id < x.source.nextCursor
  faithful : ∀ id c, x.clients.get? id = some c → c.Faithful x.source x.stream

theorem sound_start (z : Sizing) : (start z).Sound where
  keeps := Source.keeps_start z
  owns := by simp [start]
  faithful := by simp [start]

namespace Sound
variable {x : Sharing}

theorem moved (h : x.Sound) {y : Sharing} {more : List UInt8} (hk : y.source.Keeps y.stream)
    (hstream : y.stream = x.stream ++ more)
    (hended : x.source.ended = true → y.source.ended = true ∧ more = [])
    (hnext : x.source.nextCursor ≤ y.source.nextCursor)
    (hclients : ∀ id c, y.clients.get? id = some c →
      (x.clients.get? id = some c ∧ y.source.cursors.get? id = x.source.cursors.get? id) ∨
      (c.reader.cursor = id ∧ id < y.source.nextCursor ∧ c.Faithful y.source y.stream)) :
    y.Sound := by
  refine ⟨hk, ?_, ?_⟩
  · intro id c hc
    rcases hclients id c hc with ⟨hold, _⟩ | ⟨hkey, hlt, _⟩
    · obtain ⟨hkey, hlt⟩ := h.owns id c hold
      exact ⟨hkey, Nat.lt_of_lt_of_le hlt hnext⟩
    · exact ⟨hkey, hlt⟩
  · intro id c hc
    rcases hclients id c hc with ⟨hold, hcursor⟩ | ⟨_, _, hf⟩
    · obtain ⟨rfl, _⟩ := h.owns id c hold
      exact hstream ▸ (h.faithful _ c hold).others h.keeps hended hcursor
    · exact hf

theorem reserve (h : x.Sound) : (x.move .reserve).Sound := by
  have hsame : (x.source.act .reserve).ended = x.source.ended ∧
      (x.source.act .reserve).nextCursor = x.source.nextCursor ∧
      (x.source.act .reserve).cursors = x.source.cursors := by
    simp only [Source.act, Source.reserve?]
    split <;> exact ⟨rfl, rfl, rfl⟩
  refine h.moved h.keeps.reserve (List.append_nil _).symm ?_ ?_ ?_
  · exact fun he => ⟨hsame.1.trans he, rfl⟩
  · exact Nat.le_of_eq hsame.2.1.symm
  · intro id c hc
    exact Or.inl ⟨hc, congrArg (fun cs => cs.get? id) hsame.2.2⟩

theorem receive (h : x.Sound) (r : Reading) : (x.move (.receive r)).Sound := by
  refine h.moved (h.keeps.receive r) rfl ?_ ?_ ?_
  · exact fun he => h.keeps.receive_of_ended he r
  · exact Nat.le_of_eq (x.source.receive_nextCursor r).symm
  · intro id c hc
    exact Or.inl ⟨hc, congrArg (fun cs => cs.get? id) (x.source.receive_cursors r)⟩

theorem join (h : x.Sound) : (x.move .join).Sound := by
  have hk := keeps_move h.keeps .join
  simp only [move, Source.attach?] at hk ⊢
  by_cases hz : x.source.floor = 0
  · rw [if_pos hz] at hk ⊢
    refine h.moved hk (List.append_nil _).symm (fun he => ⟨he, rfl⟩) (Nat.le_succ _) ?_
    intro id c hc
    rw [Roster.get?_put] at hc
    split at hc
    · rename_i hid
      cases hc
      subst hid
      refine Or.inr ⟨rfl, Nat.lt_succ_self _, ?_⟩
      refine ⟨List.nil_prefix, by simp, List.Pairwise.nil, ?_, ?_⟩
      · intro _
        exact ⟨{}, by rw [Roster.get?_put, if_pos rfl], rfl⟩
      · intro call hw
        cases hw
    · rename_i hid
      exact Or.inl ⟨hc, by rw [Roster.get?_put, if_neg hid]⟩
  · rw [if_neg hz]
    exact h

theorem turn (h : x.Sound) (id : CursorId) (t : Client.Turn) : (x.move (.turn id t)).Sound := by
  have hk := keeps_move h.keeps (.turn id t)
  cases hc : x.clients.get? id with
  | none =>
    simp only [move, hc]
    exact h
  | some c =>
    cases hs : c.step? x.source t with
    | none =>
      simp only [move, hc, hs]
      exact h
    | some p =>
      obtain ⟨d, s⟩ := p
      simp only [move, hc, hs] at hk ⊢
      have hstep := Client.step?_inv hs
      obtain ⟨rfl, hlt⟩ := h.owns id c hc
      have htouch := hstep.touches
      refine h.moved hk (List.append_nil _).symm ?_ ?_ ?_
      · exact fun he => ⟨htouch.ended.trans he, rfl⟩
      · exact Nat.le_of_eq htouch.nextCursor.symm
      · intro j e he
        rw [Roster.get?_modify] at he
        split at he
        · rename_i hj
          obtain ⟨_, _, rfl⟩ := Option.map_eq_some_iff.mp he
          refine Or.inr ⟨hstep.cursor.trans hj.symm, ?_, ?_⟩
          · rw [hj, htouch.nextCursor]
            exact hlt
          · exact (h.faithful _ c hc).step h.keeps hstep
        · rename_i hj
          exact Or.inl ⟨he, htouch.others j hj⟩

end Sound

theorem Sound.move {x : Sharing} (h : x.Sound) (m : Move) : (x.move m).Sound := by
  cases m with
  | reserve => exact h.reserve
  | receive r => exact h.receive r
  | join => exact h.join
  | turn id t => exact h.turn id t

theorem sound_run (z : Sizing) (moves : List Move) : (run z moves).Sound :=
  List.foldlRecOn (motive := Sound) moves Sharing.move (sound_start z) fun _ h m _ => h.move m

/-- Whatever the producer and the clients have done, in whatever order: a client has received the
stream from its first byte on and no more than there is. It meets an end only when no byte will come
any more and it has received them all, and from then on each of its calls brings nothing, at once.
So all clients that have met an end have received the same. -/
theorem run_fidelity (z : Sizing) (moves : List Move) :
    let s := (run z moves).source
    let stream := (run z moves).stream
    let clients := (run z moves).clients
    (∀ id c, clients.get? id = some c →
      c.received <+: stream ∧
      (∀ a ∈ c.replies, a.isEnd = true → s.ended = true ∧ c.received = stream) ∧
      c.replies.Pairwise (fun a b => a.isEnd = true → b.data.size = 0) ∧
      (c.stage ≠ .gone → (∃ a ∈ c.replies, a.isEnd = true) →
        (c.reader.chunk? s).map Prod.fst = some none ∧
        ∀ n, (c.reader.read? n s).map Prod.fst = some ByteArray.empty)) ∧
    ∀ i j c d, clients.get? i = some c → clients.get? j = some d →
      (∃ a ∈ c.replies, a.isEnd = true) → (∃ a ∈ d.replies, a.isEnd = true) →
        c.received = d.received := by
  intro s stream clients
  have h : (run z moves).Sound := sound_run z moves
  constructor
  · intro id c hc
    have hf := h.faithful id c hc
    refine ⟨hf.prefixed, hf.ends, hf.last, ?_⟩
    rintro hg ⟨a, ha, he⟩
    obtain ⟨hend, hall⟩ := hf.ends a ha he
    exact hf.calls_of_all h.keeps hg hend hall
  · rintro i j c d hc hd ⟨a, ha, he⟩ ⟨b, hb, hf⟩
    exact ((h.faithful i c hc).ends a ha he).2.trans ((h.faithful j d hd).ends b hb hf).2.symm

-- Two clients meet the end of the same two bytes, one after two reads, the other after one span.
example :
    let moves : List Move := [.join, .join, .reserve, .receive (.bytes ⟨#[1, 2]⟩),
      .turn 1 (.call (.read 1)), .turn 1 .proceed, .turn 2 (.call .chunk), .turn 2 .proceed,
      .turn 2 .proceed, .turn 1 (.call (.read 5)), .turn 1 .proceed, .reserve, .receive .crashed,
      .turn 1 (.call (.read 5)), .turn 1 .proceed, .turn 2 (.call .chunk), .turn 2 .proceed]
    ((run ⟨2, 4⟩ moves).clients.values.map fun c => (c.received, c.replies.map Reply.isEnd)) =
      [([1, 2], [false, false, true]), ([1, 2], [false, true])] := by
  decide +kernel

end Sharing
end MediaRelay
