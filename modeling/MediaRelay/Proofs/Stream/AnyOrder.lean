import MediaRelay.Proofs.Stream.Gathering

/-! # Every order of turns ends alike

However the producer and the readers of a gathering take turns, they are done after a bounded number
of them, and what they leave behind is told by the length of the stream alone.
-/
namespace MediaRelay

namespace Gathering

/-- What holds of a gathering of so many clients all along, with the number of reads that the
producer has yet to issue. -/
structure Orderly (z : Sizing) (habit : CursorId → Call) (n : Nat) (bytes : List UInt8)
    (x : Gathering) (reads : Nat) : Prop where
  reached : ∃ moves, x.toSharing = Sharing.run z moves
  keeping : x.habit = habit
  size : x.clients.size + x.absent = n
  unread : x.absent ≠ 0 → x.source.floor = 0
  manned : ∀ id, (x.source.cursors.get? id).isSome → (x.clients.get? id).isSome
  diligent : ∀ id c, x.clients.get? id = some c → c.Diligent (habit id) x.source
  rest : (x.source.ended = true ∧ reads = 0 ∧ x.stream = bytes) ∨
    (x.source.ended = false ∧
      ∃ runs, Yields z.clamped Input.read x.stream.length x.input runs reads ∧
        x.stream ++ inRow runs = bytes)

/-- The reads to issue, the clients to join, and what the others have to do. -/
def toDo (x : Gathering) (length reads : Nat) : Nat :=
  2 * reads + (if x.source.ended = false ∧ x.source.reserved = none then 1 else 0) +
    total (Client.toDo length) x.clients.values + x.absent * (5 * length + 5)

theorem toDo_fed (x : Gathering) (d : Draw Input) (length reads : Nat) :
    (x.fed d).toDo length reads =
      2 * reads + (if d.source.ended = false ∧ d.source.reserved = none then 1 else 0) +
        total (Client.toDo length) x.clients.values + x.absent * (5 * length + 5) := rfl

namespace Orderly
variable {z : Sizing} {habit : CursorId → Call} {n : Nat} {bytes : List UInt8} {x y : Gathering}
  {reads : Nat}

theorem sound (h : Orderly z habit n bytes x reads) : x.Sound := by
  obtain ⟨moves, hx⟩ := h.reached
  rw [hx]
  exact Sharing.sound_run z moves

theorem moved (h : Orderly z habit n bytes x reads) (m : Sharing.Move) :
    ∃ moves, x.move m = Sharing.run z moves := by
  obtain ⟨moves, hx⟩ := h.reached
  refine ⟨moves ++ [m], ?_⟩
  rw [hx, Sharing.run, Sharing.run, List.foldl_append]
  rfl

theorem sizing (h : Orderly z habit n bytes x reads) : x.source.sizing = z.clamped := by
  obtain ⟨moves, hx⟩ := h.reached
  obtain ⟨actions, hf⟩ := Sharing.run_toFlow z moves
  rw [hx, hf]
  exact Flow.sizing_run z actions

theorem trimmed (h : Orderly z habit n bytes x reads) : x.source.Trimmed := by
  obtain ⟨moves, hx⟩ := h.reached
  obtain ⟨actions, hf⟩ := Sharing.run_toFlow z moves
  rw [hx, hf]
  exact Flow.trimmed_run z actions

theorem supplied (h : Orderly z habit n bytes x reads) (hz : z.clamped.Ample) :
    x.source.Supplied := by
  obtain ⟨moves, hx⟩ := h.reached
  obtain ⟨actions, hf⟩ := Sharing.run_toFlow z moves
  rw [hx, hf]
  exact Flow.supplied_run hz actions

theorem stream_prefix (h : Orderly z habit n bytes x reads) : x.stream <+: bytes := by
  rcases h.rest with ⟨_, _, hstream⟩ | ⟨_, runs, _, hruns⟩
  · exact hstream ▸ List.prefix_refl _
  · exact ⟨inRow runs, hruns⟩

theorem length_received_le (h : Orderly z habit n bytes x reads) {id : CursorId} {c : Client}
    (hc : x.clients.get? id = some c) : c.received.length ≤ bytes.length :=
  (((h.sound.faithful id c hc).prefixed).trans h.stream_prefix).length_le

/-- A read under way is as long as the offset tells that the stream has come to. -/
theorem yields (h : Orderly z habit n bytes x reads) {span : Span}
    (hs : x.source.reserved = some span) :
    x.source.ended = false ∧ span.length = z.clamped.readLength x.stream.length ∧
      ∃ runs, Yields z.clamped Input.read x.stream.length x.input runs reads ∧
        x.stream ++ inRow runs = bytes := by
  have hk := h.sound.keeps
  have hopen := (hk.reserved span hs).2.2
  have hlength := Draw.reserved_length (x := x.draw) hk hs
  refine ⟨hopen, ?_, ?_⟩
  · rw [← h.sizing]
    exact hlength
  · rcases h.rest with ⟨hend, _⟩ | ⟨_, hrest⟩
    · rw [hopen] at hend
      cases hend
    · exact hrest

theorem produced (h : Orderly z habit n bytes x reads) {d : Draw Input} {k : Nat}
    (hd : Draw.Advance Input.read x.draw d)
    (hrest : (d.source.ended = true ∧ k = 0 ∧ d.stream = bytes) ∨
      (d.source.ended = false ∧ ∃ runs, Yields z.clamped Input.read d.stream.length d.input runs k ∧
        d.stream ++ inRow runs = bytes)) :
    Orderly z habit n bytes (x.fed d) k where
  reached := by
    have hsharing : (x.fed d).toSharing = ⟨d.toFlow, x.clients⟩ := rfl
    rw [hsharing]
    rcases hd.toFlow_eq with he | ⟨r, he⟩
    · rw [he]
      exact h.moved .reserve
    · rw [he]
      exact h.moved (.receive r)
  keeping := h.keeping
  size := h.size
  unread := fun ha => hd.same.2.trans (h.unread ha)
  manned := fun id hid => h.manned id (hd.same.1 ▸ hid)
  diligent := by
    intro id c hc
    refine (h.diligent id c hc).others ?_
    change d.source.cursors.get? _ = _
    rw [hd.same.1]
    rfl
  rest := hrest

theorem advance (h : Orderly z habit n bytes x reads) {d : Draw Input}
    (hd : Draw.Advance Input.read x.draw d) :
    ∃ k, Orderly z habit n bytes (x.fed d) k ∧
      (x.fed d).toDo bytes.length k < x.toDo bytes.length reads := by
  have hdo := x.toDo_fed x.draw bytes.length reads
  change x.toDo bytes.length reads = _ at hdo
  have hproduced := fun k => h.produced (k := k) hd
  cases hd with
  | reserve span s hs hv =>
    have hact : (x.draw.act .reserve).source = s := by simp [Flow.act, Source.act, hv]
    obtain ⟨hopen, _, rfl, rfl⟩ := Source.reserve?_eq_some hv
    refine ⟨reads, hproduced reads ?_, ?_⟩
    · rcases h.rest with ⟨hend, _⟩ | ⟨_, hrest⟩
      · cases hend.symm.trans hopen
      · exact Or.inr ⟨(congrArg Source.ended hact).trans hopen, hrest⟩
    · rw [if_pos ⟨hopen, hs⟩] at hdo
      rw [toDo_fed, if_neg (by simp [hact])]
      omega
  | again span i hs hi =>
    obtain ⟨hopen, hlength, runs, hyields, hruns⟩ := h.yields hs
    obtain ⟨k, rfl, hrest⟩ := hyields.of_interrupted (hlength ▸ hi)
    refine ⟨k, hproduced k (Or.inr ⟨hopen, runs, hrest, hruns⟩), ?_⟩
    rw [toDo_fed, if_neg (by simp [hs])]
    omega
  | last span r i hs hi hlast =>
    obtain ⟨_, hlength, runs, hyields, hruns⟩ := h.yields hs
    obtain ⟨rfl, rfl⟩ := hyields.of_last (hlength ▸ hi) (hlength ▸ hlast)
    refine ⟨0, hproduced 0 (Or.inl ⟨rfl, rfl, ?_⟩), ?_⟩
    · exact (List.append_nil _).symm.trans hruns
    · rw [toDo_fed, if_neg (by simp [Source.finish])]
      omega
  | more span data i hs hi hpos hle =>
    -- One of the runs moves from what the input still yields to what has come in.
    obtain ⟨hopen, hlength, runs, hyields, hruns⟩ := h.yields hs
    obtain ⟨rest, k, rfl, rfl, hrest⟩ := hyields.of_bytes (hlength ▸ hi) hpos (hlength ▸ hle)
    refine ⟨k, hproduced k (Or.inr ⟨hopen, rest, ?_, ?_⟩), ?_⟩
    · have hmore : (x.stream ++ data.data.toList).length = x.stream.length + data.size := by
        rw [List.length_append, Array.length_toList]
        rfl
      change Yields _ _ (x.stream ++ data.data.toList).length _ _ _
      rw [hmore]
      exact hrest
    · exact (List.append_assoc _ _ _).trans hruns
    · rw [toDo_fed]
      split <;> omega

theorem join (h : Orderly z habit n bytes x reads) {k : Nat} (ha : x.absent = k + 1) :
    Orderly z habit n bytes { x with toSharing := x.move .join, absent := k } reads ∧
      toDo { x with toSharing := x.move .join, absent := k } bytes.length reads <
        x.toDo bytes.length reads := by
  let id := x.source.nextCursor
  let c : Client := { reader := { cursor := id } }
  -- As long as somebody is absent nobody reads, and the start of the stream stays.
  have hz : x.source.floor = 0 := h.unread (by omega)
  have hsource : (x.move .join).source = { x.source with
      cursors := x.source.cursors.put id {}, nextCursor := id + 1 } := by
    simp [Sharing.move, Source.attach?, hz, id]
  have hclients : (x.move .join).clients = x.clients.put id c := by
    simp [Sharing.move, Source.attach?, hz, id, c]
  have hstream : (x.move .join).stream = x.stream := by
    simp [Sharing.move, Source.attach?, hz]
  have hfresh : x.clients.get? id = none := by
    refine Option.eq_none_iff_forall_ne_some.mpr ?_
    intro d hd
    exact Nat.lt_irrefl id (h.sound.owns id d hd).2
  constructor
  · refine ⟨h.moved .join, h.keeping, ?_, ?_, ?_, ?_, ?_⟩
    · have hsize := h.size
      change (x.move .join).clients.size + k = n
      rw [hclients, Roster.size, Roster.entries_put_of_fresh hfresh, List.length_append,
        List.length_singleton]
      simp only [Roster.size] at hsize
      omega
    · intro _
      change (x.move .join).source.floor = 0
      rw [hsource]
      exact hz
    · intro j hj
      change ((x.move .join).source.cursors.get? j).isSome at hj
      change ((x.move .join).clients.get? j).isSome
      rw [hsource, Roster.get?_put] at hj
      rw [hclients, Roster.get?_put]
      split
      · rfl
      · rename_i hne
        rw [if_neg hne] at hj
        exact h.manned j hj
    · intro j d hd
      change (x.move .join).clients.get? j = some d at hd
      change d.Diligent (habit j) (x.move .join).source
      rw [hclients, Roster.get?_put] at hd
      split at hd
      · cases hd
        exact ⟨by simp [c], by simp [c], by simp [c, Client.met]⟩
      · rename_i hne
        obtain ⟨hkey, _⟩ := h.sound.owns j d hd
        refine (h.diligent j d hd).others ?_
        rw [hsource, hkey, Roster.get?_put, if_neg hne]
    · change ((x.move .join).source.ended = true ∧ reads = 0 ∧ (x.move .join).stream = bytes) ∨ _
      rw [hsource, hstream]
      exact h.rest
  · have hc : c.toDo bytes.length ≤ 5 * bytes.length + 4 := c.toDo_le bytes.length
    have hmul : (k + 1) * (5 * bytes.length + 5) =
        k * (5 * bytes.length + 5) + (5 * bytes.length + 5) := Nat.succ_mul _ _
    simp only [toDo, hclients, hsource, Roster.total_put hfresh, ha]
    omega

theorem read (h : Orderly z habit n bytes x reads) (hhabit : ∀ id, (habit id).insists = true)
    (ha : x.absent = 0) {id : CursorId} {c d : Client} (hc : x.clients.get? id = some c)
    {t : Client.Turn} (ht : c.next? (habit id) = some t) {s : Source}
    (hs : c.step? x.source t = some (d, s)) :
    Orderly z habit n bytes { x with toSharing := x.move (.turn id t) } reads ∧
      toDo { x with toSharing := x.move (.turn id t) } bytes.length reads <
        x.toDo bytes.length reads := by
  have hsound := h.sound
  obtain ⟨hkey, _⟩ := hsound.owns id c hc
  have hfaithful := hsound.faithful id c hc
  have hadvance := Client.advance_of_step? (hhabit id) ht hs
  have htouch := hadvance.step.touches
  rw [hkey] at htouch
  have hsource : (x.move (.turn id t)).source = s := by simp [Sharing.move, hc, hs]
  have hclients : (x.move (.turn id t)).clients = x.clients.modify id fun _ => d := by
    simp [Sharing.move, hc, hs]
  have hstream : (x.move (.turn id t)).stream = x.stream := by simp [Sharing.move, hc, hs]
  have hnow : Orderly z habit n bytes { x with toSharing := x.move (.turn id t) } reads := by
    refine ⟨h.moved (.turn id t), h.keeping, ?_, fun hne => absurd ha hne, ?_, ?_, ?_⟩
    · have hsize := h.size
      change (x.move (.turn id t)).clients.size + x.absent = n
      rw [hclients, Roster.size, ← List.length_map Prod.fst]
      change (x.clients.modify id fun _ => d).ids.length + x.absent = n
      rw [Roster.ids_modify, Roster.ids, List.length_map]
      exact hsize
    · intro j hj
      change ((x.move (.turn id t)).source.cursors.get? j).isSome at hj
      change ((x.move (.turn id t)).clients.get? j).isSome
      rw [hclients, Roster.get?_modify]
      by_cases hne : j = id
      · simp [hne, hc]
      · rw [if_neg hne]
        rw [hsource, htouch.others j hne] at hj
        exact h.manned j hj
    · intro j e he
      change (x.move (.turn id t)).clients.get? j = some e at he
      change e.Diligent (habit j) (x.move (.turn id t)).source
      rw [hsource]
      rw [hclients, Roster.get?_modify] at he
      split at he
      · rename_i hj
        subst hj
        obtain ⟨_, _, rfl⟩ := Option.map_eq_some_iff.mp he
        exact hadvance.diligent (hhabit j) (h.diligent j c hc) hfaithful hsound.keeps
      · rename_i hne
        obtain ⟨hother, _⟩ := hsound.owns j e he
        refine (h.diligent j e he).others ?_
        rw [hother]
        exact htouch.others j hne
    · change ((x.move (.turn id t)).source.ended = true ∧ reads = 0 ∧
        (x.move (.turn id t)).stream = bytes) ∨ _
      rw [hsource, hstream, htouch.ended]
      exact h.rest
  refine ⟨hnow, ?_⟩
  have hlen : d.received.length ≤ bytes.length := by
    have hd : (x.move (.turn id t)).clients.get? id = some d := by
      simp [hclients, Roster.get?_modify, hc]
    exact hnow.length_received_le hd
  have hless := hadvance.toDo_lt (hhabit id) (h.diligent id c hc) hfaithful hsound.keeps hlen
  have htotal := Roster.total_modify hc (fun _ => d) (Client.toDo bytes.length)
  simp only [toDo, hclients, hsource, htouch.ended, hadvance.reserved]
  omega

/-- Every turn leaves less to do. -/
theorem turn (h : Orderly z habit n bytes x reads) (hhabit : ∀ id, (habit id).insists = true)
    {t : Turn} (ht : x.turn? t = some y) :
    ∃ k, Orderly z habit n bytes y k ∧ y.toDo bytes.length k < x.toDo bytes.length reads := by
  cases t with
  | producer =>
    obtain ⟨d, hd, rfl⟩ := Option.map_eq_some_iff.mp ht
    exact h.advance (Draw.advance_of_produce? hd)
  | join =>
    simp only [turn?, join?] at ht
    cases ha : x.absent with
    | zero => simp [ha] at ht
    | succ k =>
      simp only [ha] at ht
      obtain ⟨_, _, rfl⟩ := Option.map_eq_some_iff.mp ht
      exact ⟨reads, h.join ha⟩
  | client id =>
    simp only [turn?, read?] at ht
    split at ht
    · rename_i c ha hc
      split at ht
      · cases ht
      · rename_i t hnext
        obtain ⟨⟨d, s⟩, hstep, rfl⟩ := Option.map_eq_some_iff.mp ht
        rw [h.keeping] at hnext
        exact ⟨reads, h.read hhabit ha hc hnext hstep⟩
    · cases ht

theorem play (h : Orderly z habit n bytes x reads) (hhabit : ∀ id, (habit id).insists = true)
    {turns : List Turn} (hplay : x.play? turns = some y) :
    ∃ k, Orderly z habit n bytes y k ∧
      turns.length + y.toDo bytes.length k ≤ x.toDo bytes.length reads := by
  induction turns generalizing x reads with
  | nil =>
    cases hplay
    exact ⟨reads, h, Nat.le_of_eq (Nat.zero_add _)⟩
  | cons t rest ih =>
    obtain ⟨v, hv, hrest⟩ := Option.bind_eq_some_iff.mp hplay
    obtain ⟨i, hi, hless⟩ := h.turn hhabit hv
    obtain ⟨k, hk, hle⟩ := ih hi hrest
    refine ⟨k, hk, ?_⟩
    rw [List.length_cons]
    omega

/-! ## Where nobody can take a turn -/

theorem absent_of_stuck (h : Orderly z habit n bytes x reads) (hstuck : x.turn? .join = none) :
    x.absent = 0 := by
  cases ha : x.absent with
  | zero => rfl
  | succ k =>
    have hz : x.source.floor = 0 := h.unread (by omega)
    simp [turn?, join?, ha, Source.attach?, hz] at hstuck

theorem cursor_of_absent (h : Orderly z habit n bytes x reads) (hn : 0 < n) (ha : x.absent = 0) :
    ∃ id, (x.source.cursors.get? id).isSome := by
  have hsize := h.size
  obtain ⟨⟨id, c⟩, hmem⟩ := List.exists_mem_of_length_pos (l := x.clients.entries)
    (by simp only [Roster.size] at hsize; omega)
  have hc := (x.clients.get?_eq_some_iff id c).mpr hmem
  obtain ⟨hkey, _⟩ := h.sound.owns id c hc
  obtain ⟨cur, hcur, _⟩ := (h.sound.faithful id c hc).tracks (h.diligent id c hc).stays
  exact ⟨id, Option.isSome_iff_exists.mpr ⟨cur, hkey ▸ hcur⟩⟩

theorem client_of_stuck (h : Orderly z habit n bytes x reads) (hstuck : ∀ t, x.turn? t = none)
    {id : CursorId} {c : Client}
    (hc : x.clients.get? id = some c) :
    ∃ cur, x.source.cursors.get? id = some cur ∧
      (c.met = true ∨ cur.offset = x.source.high ∧ x.source.ended = false) := by
  have hsound := h.sound
  obtain ⟨hkey, _⟩ := hsound.owns id c hc
  have hdiligent := h.diligent id c hc
  obtain ⟨cur, hcur, _⟩ := (hsound.faithful id c hc).tracks hdiligent.stays
  rw [hkey] at hcur
  refine ⟨cur, hcur, ?_⟩
  have hturn := hstuck (.client id)
  simp only [turn?, read?, h.absent_of_stuck (hstuck .join), hc, h.keeping] at hturn
  cases hs : c.stage with
  | idle =>
    cases hm : c.met with
    | true => exact Or.inl rfl
    | false => simp [Client.next?, hs, hm, Client.step?] at hturn
  | waiting asked =>
    right
    refine (hsound.keeps.fetch_eq_wait_iff hcur).mp ?_
    simp only [Client.next?, hs, Client.step?, Client.proceed?, hkey] at hturn
    split at hturn <;> simp_all
  | leaving => simp [Client.next?, hs, Client.step?, Client.proceed?] at hturn
  | gone => exact absurd hs hdiligent.stays

/-- Nobody can take a turn only when the stream has ended: clients that all wait leave room. -/
theorem ended_of_stuck (h : Orderly z habit n bytes x reads) (hz : z.clamped.Ample) (hn : 0 < n)
    (hstuck : ∀ t, x.turn? t = none) :
    x.source.ended = true := by
  cases hopen : x.source.ended with
  | true => rfl
  | false =>
    exfalso
    have hsound := h.sound
    have hwait : ∀ id cur, x.source.cursors.get? id = some cur → cur.offset = x.source.high := by
      intro id cur hcur
      obtain ⟨c, hc⟩ := Option.isSome_iff_exists.mp (h.manned id (by simp [hcur]))
      obtain ⟨other, hother, hmet | ⟨hoff, _⟩⟩ := h.client_of_stuck hstuck hc
      · obtain ⟨a, ha, hend⟩ := List.any_eq_true.mp hmet
        rw [((hsound.faithful id c hc).ends a ha hend).1] at hopen
        cases hopen
      · rw [hcur] at hother
        cases hother
        exact hoff
    have hsome := h.cursor_of_absent hn (h.absent_of_stuck (hstuck .join))
    have hroom := (h.supplied hz).room hsome hwait
    have hturn : x.draw.produce? Input.read = none := Option.map_eq_none_iff.mp (hstuck .producer)
    cases hs : x.source.reserved with
    | none =>
      have hfree := Source.reserve_of_room hopen hs hroom
      cases (Draw.reserve?_of_produce? hturn hs).symm.trans hfree
    | some span =>
      obtain ⟨_, hlength, _, hyields, _⟩ := h.yields hs
      exact hyields.not_pending (hlength ▸ Draw.pending_of_produce? hturn hs)

end Orderly

/-- How a gathering ends: each client has all bytes, and the rest follows from how many they are. -/
structure Settled (x : Gathering) (z : Sizing) (n : Nat) (bytes : List UInt8) : Prop where
  joined : x.clients.size = n
  received : ∀ id c, x.clients.get? id = some c → c.met = true ∧ c.received = bytes ∧
    x.source.position? id = some bytes.length
  ended : x.source.ended = true
  floor : x.source.floor = if bytes.length < z.capacity * 3 / 4 then 0
    else z.blockSize * (bytes.length / z.blockSize)
  used : x.source.used = bytes.length - x.source.floor
  attach : x.source.attach?.isSome ↔ bytes.length < z.capacity * 3 / 4

theorem Orderly.settled {z : Sizing} {habit : CursorId → Call} {n : Nat} {bytes : List UInt8}
    {x : Gathering} {reads : Nat} (h : Orderly z habit n bytes x reads) (hz : z.clamped.Roomy)
    (hn : 0 < n) (hstuck : ∀ t, x.turn? t = none) : x.Settled z.clamped n bytes := by
  have hsound := h.sound
  have hk := hsound.keeps
  have hend := h.ended_of_stuck hz.ample hn hstuck
  have hstream : x.stream = bytes := by
    rcases h.rest with ⟨_, _, hstream⟩ | ⟨hopen, _⟩
    · exact hstream
    · rw [hend] at hopen
      cases hopen
  have hhigh : x.source.high = bytes.length := hstream ▸ hk.high_eq
  have hclient : ∀ id c, x.clients.get? id = some c → c.met = true ∧ c.received = bytes ∧
      ∃ cur, x.source.cursors.get? id = some cur ∧ cur.offset = bytes.length := by
    intro id c hc
    obtain ⟨cur, hcur, hmet | ⟨_, hopen⟩⟩ := h.client_of_stuck hstuck hc
    · obtain ⟨hkey, _⟩ := hsound.owns id c hc
      have hfaithful := hsound.faithful id c hc
      have hdiligent := h.diligent id c hc
      obtain ⟨a, ha, hlast⟩ := List.any_eq_true.mp hmet
      have hreceived := (hfaithful.ends a ha hlast).2
      refine ⟨hmet, hreceived.trans hstream, cur, hcur, ?_⟩
      obtain ⟨same, hsame, htracks⟩ := hfaithful.tracks hdiligent.stays
      have havailable := hdiligent.committed hmet same hsame
      rw [hkey, hcur] at hsame
      cases hsame
      have hlen := congrArg List.length htracks
      rw [hreceived, List.length_append, List.length_take, havailable, hstream] at hlen
      have hle := (hk.cursor id cur hcur).2
      omega
    · rw [hend] at hopen
      cases hopen
  -- Nobody lags behind, so all that can go has been evicted, if anything has.
  have habsent := h.absent_of_stuck (hstuck .join)
  have hslow : x.source.slowest? = some x.source.high := by
    refine Source.slowest?_of_all (h.cursor_of_absent hn habsent) ?_
    intro id cur hcur
    obtain ⟨c, hc⟩ := Option.isSome_iff_exists.mp (h.manned id (by simp [hcur]))
    obtain ⟨_, _, same, hsame, hoff⟩ := hclient id c hc
    rw [hcur] at hsame
    cases hsame
    exact hoff.trans hhigh.symm
  have hfloor := h.trimmed.floor_eq hk hslow
  have hiff := h.trimmed.floor_eq_zero_iff hk (h.sizing ▸ hz) hslow
  rw [hhigh, Source.capacity, h.sizing] at hfloor hiff
  refine ⟨?_, ?_, hend, hfloor, ?_, ?_⟩
  · have hsize := h.size
    rw [habsent] at hsize
    exact hsize
  · intro id c hc
    obtain ⟨hmet, hreceived, cur, hcur, hoff⟩ := hclient id c hc
    exact ⟨hmet, hreceived, by simp [Source.position?, hcur, hoff]⟩
  · simp only [Source.high] at hhigh
    omega
  · rw [← hiff]
    simp [Source.attach?]

end Gathering
end MediaRelay
