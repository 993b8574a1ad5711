import MediaRelay.Proofs.Stream.Eviction
import MediaRelay.Proofs.Stream.Flow

/-! # What is resident in a ring

A source keeps the last part of its stream, from a floor on a boundary of blocks up to the end of
what has come in: the byte at offset `i` lies in cell `i % capacity`. No cursor stands outside of
that part, and the cells reserved for a read hold none of it, however long the read takes.
-/
namespace MediaRelay

theorem Sizing.clamped_blockSize (z : Sizing) : 0 < z.clamped.blockSize :=
  Nat.le_max_right z.blockSize 1

theorem Nat.add_mod_of_mod_add_lt {a b n : Nat} (h : a % n + b < n) : (a + b) % n = a % n + b := by
  rw [← Nat.mod_add_mod, Nat.mod_eq_of_lt h]

/-- Two offsets less than one turn apart lie in different cells. -/
theorem Nat.mod_ne_mod_of_lt {i j n : Nat} (hij : i < j) (hn : j - i < n) : j % n ≠ i % n := by
  intro h
  have hz := Nat.sub_mod_eq_zero_of_mod_eq h
  rw [Nat.mod_eq_of_lt hn] at hz
  omega

namespace Source

/-- What a source that has taken in a stream holds of it. -/
structure Keeps (s : Source) (stream : List UInt8) : Prop where
  block_pos : 0 < s.sizing.blockSize
  fits : s.high = 0 ∨ s.sizing.blockSize ≤ s.capacity
  high_eq : s.high = stream.length
  used_le : s.used ≤ s.capacity
  aligned : s.sizing.blockSize ∣ s.floor
  cursor : ∀ id c, s.cursors.get? id = some c →
    s.floor ≤ c.offset ∧ c.offset + c.available ≤ s.high
  cells : s.ring.cells.size = min s.capacity s.high
  cell : ∀ i, s.floor ≤ i → i < s.high → s.ring.cell? (i % s.capacity) = stream[i]?
  reserved : ∀ span, s.reserved = some span →
    span = s.writeSpan ∧ s.used + s.sizing.blockSize ≤ s.capacity ∧ s.ended = false

theorem keeps_start (z : Sizing) : Keeps (start z) [] where
  block_pos := z.clamped_blockSize
  fits := Or.inl rfl
  high_eq := rfl
  used_le := Nat.zero_le _
  aligned := Nat.dvd_zero _
  cursor := by simp [start]
  cells := (Nat.min_zero _).symm
  cell := by simp [start, high]
  reserved := by simp [start]

namespace Keeps
variable {s : Source} {stream : List UInt8}

theorem capacity_pos (h : s.Keeps stream) (hhigh : 0 < s.high) : 0 < s.capacity := by
  have hb := h.block_pos
  have hfits := h.fits
  omega

theorem mod_capacity_le (h : s.Keeps stream) : s.high % s.capacity ≤ s.capacity := by
  rcases Nat.eq_zero_or_pos s.high with hzero | hpos
  · rw [hzero, Nat.zero_mod]
    exact Nat.zero_le _
  · exact Nat.le_of_lt (Nat.mod_lt s.high (h.capacity_pos hpos))

theorem slowest?_le_high (h : s.Keeps stream) {m : Nat} (hm : s.slowest? = some m) :
    m ≤ s.high := by
  obtain ⟨⟨id, c, hc, rfl⟩, _⟩ := (s.slowest?_eq_some_iff m).mp hm
  have hle := (h.cursor id c hc).2
  omega

theorem floor_le_slowest? (h : s.Keeps stream) {m : Nat} (hm : s.slowest? = some m) :
    s.floor ≤ m := by
  obtain ⟨⟨id, c, hc, rfl⟩, _⟩ := (s.slowest?_eq_some_iff m).mp hm
  exact (h.cursor id c hc).1

theorem evict_high (h : s.Keeps stream) : s.evict.high = s.high :=
  Source.evict_high fun _ hm => h.slowest?_le_high hm

theorem evict (h : s.Keeps stream) : s.evict.Keeps stream := by
  have hh := h.evict_high
  have hu := s.evict_used_le
  obtain ⟨freed, he, hd, hf⟩ := s.evict_spec
  have hfloor : s.evict.floor = s.floor + freed := by rw [he]
  refine
    { block_pos := by simpa using h.block_pos
      fits := by simpa [hh] using h.fits
      high_eq := hh.trans h.high_eq
      used_le := by simpa using Nat.le_trans hu h.used_le
      aligned := ?_
      cursor := ?_
      cells := by simpa [hh] using h.cells
      cell := ?_
      reserved := ?_ }
  · rw [hfloor, evict_sizing]
    exact Nat.dvd_add h.aligned hd
  · intro id c hc
    rw [evict_cursors] at hc
    rw [hfloor, hh]
    refine ⟨?_, (h.cursor id c hc).2⟩
    rcases hf with rfl | ⟨m, hm, hle⟩
    · exact (h.cursor id c hc).1
    · exact Nat.le_trans hle (((s.slowest?_eq_some_iff m).mp hm).2 id c hc)
  · intro i hi hj
    rw [hh] at hj
    rw [evict_ring, evict_capacity]
    exact h.cell i (by omega) hj
  · intro span hs
    rw [evict_reserved] at hs
    obtain ⟨hw, hroom, hopen⟩ := h.reserved span hs
    refine ⟨?_, ?_, ?_⟩
    · simpa only [writeSpan, hh, evict_capacity, evict_sizing] using hw
    · rw [evict_sizing, evict_capacity]
      omega
    · rw [evict_ended]
      exact hopen

theorem withCursors (h : s.Keeps stream) {cs : Roster CursorId Cursor} {n : CursorId}
    (hc : ∀ id c, cs.get? id = some c → s.floor ≤ c.offset ∧ c.offset + c.available ≤ s.high) :
    Keeps { s with cursors := cs, nextCursor := n } stream :=
  { h with cursor := hc }

theorem commit (h : s.Keeps stream) (id : CursorId) : (s.commit id).Keeps stream := by
  refine h.withCursors ?_
  intro j c hc
  rw [Roster.get?_modify] at hc
  split at hc
  · obtain ⟨d, hd, rfl⟩ := Option.map_eq_some_iff.mp hc
    have hle := h.cursor j d hd
    exact ⟨Nat.le_trans hle.1 (Nat.le_add_right _ _), hle.2⟩
  · exact h.cursor j c hc

theorem release (h : s.Keeps stream) (id : CursorId) : (s.release id).Keeps stream :=
  (h.commit id).evict

theorem attach (h : s.Keeps stream) : (s.act .attach).Keeps stream := by
  simp only [act, attach?]
  split
  · rename_i hz
    refine h.withCursors ?_
    intro j c hc
    rw [Roster.get?_put] at hc
    split at hc
    · cases hc
      exact ⟨by simp [hz], Nat.zero_le _⟩
    · exact h.cursor j c hc
  · exact h

theorem erase (h : s.Keeps stream) (id : CursorId) :
    Keeps { s with cursors := s.cursors.erase id } stream := by
  refine h.withCursors ?_
  intro j c hc
  rw [Roster.get?_erase] at hc
  split at hc
  · cases hc
  · exact h.cursor j c hc

theorem detach (h : s.Keeps stream) (id : CursorId) : (s.detach id).Keeps stream := by
  unfold Source.detach
  split
  · exact (h.erase id).evict
  · exact h

theorem fetch (h : s.Keeps stream) (id : CursorId) : (s.fetch id).2.Keeps stream := by
  rcases s.fetch_cases id with ⟨_, he⟩ | ⟨_, _, _, he⟩ | ⟨c, hc, hlt, he⟩
  · simpa only [he] using h
  · simpa only [he] using h
  · rw [he]
    refine h.withCursors ?_
    intro j d hd
    rw [Roster.get?_modify] at hd
    split at hd
    · rename_i hj
      obtain ⟨e, hg, rfl⟩ := Option.map_eq_some_iff.mp hd
      have heq : e = c := Option.some.inj (hg.symm.trans (hj ▸ hc))
      subst heq
      refine ⟨(h.cursor id e hc).1, ?_⟩
      simp only [readSpan]
      omega
    · exact h.cursor j d hd

theorem reserve (h : s.Keeps stream) : (s.act .reserve).Keeps stream := by
  simp only [act, reserve?]
  split
  · rename_i hr
    refine { h with reserved := ?_ }
    intro span hs
    cases hs
    exact ⟨rfl, of_decide_eq_true hr.2.2, hr.1⟩
  · exact h

theorem finish (h : s.Keeps stream) : s.finish.Keeps stream :=
  { h with
    reserved := by
      intro span hs
      cases hs }

theorem writeSpan_le (h : s.Keeps stream) :
    s.writeSpan.start + s.writeSpan.length ≤ s.capacity := by
  have hle := h.mod_capacity_le
  simp only [writeSpan]
  omega

/-- While there is room for a block, the cells of the next write hold nothing that is resident. -/
theorem writeSpan_disjoint (h : s.Keeps stream) (hroom : s.used + s.sizing.blockSize ≤ s.capacity)
    {i : Nat} (hi : s.floor ≤ i) (hj : i < s.high) :
    ¬(s.writeSpan.start ≤ i % s.capacity ∧
      i % s.capacity < s.writeSpan.start + s.writeSpan.length) := by
  rintro ⟨hge, hlt⟩
  have hle := h.writeSpan_le
  have hlen : s.writeSpan.length ≤ s.sizing.blockSize := Nat.min_le_left _ _
  have hstart : s.writeSpan.start = s.high % s.capacity := rfl
  obtain ⟨k, hk⟩ := Nat.exists_eq_add_of_le hge
  -- The cell of `i` would also be that of an offset past the high end, less than a turn away.
  have hmod : (s.high + k) % s.capacity = i % s.capacity := by
    rw [Nat.add_mod_of_mod_add_lt (by omega)]
    omega
  refine Nat.mod_ne_mod_of_lt (show i < s.high + k by omega) ?_ hmod
  simp only [high] at hj ⊢
  omega

/-- A write has no gap below it: the cells are filled in the order of the offsets. -/
theorem writeSpan_le_size (h : s.Keeps stream) : s.writeSpan.start ≤ s.ring.cells.size := by
  have hle := h.mod_capacity_le
  have hm := Nat.mod_le s.high s.capacity
  rw [h.cells]
  simp only [writeSpan]
  omega

theorem append_size (h : s.Keeps stream) (data : ByteArray)
    (hd : data.size ≤ s.writeSpan.length) :
    (s.ring.write s.writeSpan.start data).cells.size = min s.capacity (s.high + data.size) := by
  have hle := h.writeSpan_le
  rw [Ring.size_write _ _ _ h.writeSpan_le_size, h.cells]
  by_cases hfirst : s.high < s.capacity
  · have hm : s.writeSpan.start = s.high := Nat.mod_eq_of_lt hfirst
    omega
  · omega

theorem append_cell (h : s.Keeps stream) (hroom : s.used + s.sizing.blockSize ≤ s.capacity)
    {data : ByteArray} (hd : data.size ≤ s.writeSpan.length) {i : Nat} (hi : s.floor ≤ i)
    (hj : i < s.high + data.size) :
    (s.ring.write s.writeSpan.start data).cell? (i % s.capacity) =
      (stream ++ data.data.toList)[i]? := by
  have hle := h.writeSpan_le
  rw [Ring.cell?_write _ _ _ h.writeSpan_le_size]
  by_cases hold : i < s.high
  · have hdis := h.writeSpan_disjoint hroom hi hold
    have hlt : i < stream.length := h.high_eq ▸ hold
    rw [if_neg (by omega), h.cell i hi hold, List.getElem?_append_left hlt]
  · obtain ⟨k, rfl⟩ := Nat.exists_eq_add_of_le (Nat.le_of_not_lt hold)
    have hm : (s.high + k) % s.capacity = s.writeSpan.start + k :=
      Nat.add_mod_of_mod_add_lt (by simp only [writeSpan] at hle hd ⊢; omega)
    rw [hm, if_pos (by omega), Nat.add_sub_cancel_left, h.high_eq,
      List.getElem?_append_right (Nat.le_add_right _ _), Nat.add_sub_cancel_left,
      Array.getElem?_toList]

theorem append (h : s.Keeps stream) {span : Span} (hs : s.reserved = some span) {data : ByteArray}
    (hd : data.size ≤ span.length) :
    (s.append span data).Keeps (stream ++ data.data.toList) := by
  obtain ⟨rfl, hroom, -⟩ := h.reserved span hs
  have hlen : s.writeSpan.length ≤ s.sizing.blockSize := Nat.min_le_left _ _
  have hhigh : (s.append s.writeSpan data).high = s.high + data.size := by
    simp only [Source.append, high]
    omega
  refine
    { h with
      fits := Or.inr (Nat.le_trans (Nat.le_add_left _ _) hroom)
      high_eq := ?_
      used_le := ?_
      cursor := ?_
      cells := ?_
      cell := ?_
      reserved := ?_ }
  · rw [hhigh, h.high_eq, List.length_append, Array.length_toList]
    rfl
  · change s.used + data.size ≤ s.capacity
    omega
  · intro id c hc
    have hc := h.cursor id c hc
    rw [hhigh]
    exact ⟨hc.1, by omega⟩
  · rw [hhigh]
    exact h.append_size data hd
  · intro i hi hj
    rw [hhigh] at hj
    exact h.append_cell hroom hd hi hj
  · intro span hs
    cases hs

theorem readSpan_le (h : s.Keeps stream) {o : Nat} (ho : o < s.high) :
    (s.readSpan o).start + (s.readSpan o).length ≤ s.ring.cells.size := by
  have hlt := Nat.mod_lt o (h.capacity_pos (Nat.zero_lt_of_lt ho))
  have hm := Nat.mod_le o s.capacity
  rw [h.cells]
  simp only [readSpan]
  by_cases hfirst : s.high < s.capacity
  · have ho := Nat.mod_eq_of_lt (Nat.lt_trans ho hfirst)
    omega
  · omega

theorem read_eq (h : s.Keeps stream) {o : Nat} (hf : s.floor ≤ o) :
    (s.ring.read (s.readSpan o)).data.toList = (stream.drop o).take (s.readSpan o).length := by
  apply List.ext_getElem?
  intro i
  rw [Array.getElem?_toList, Ring.getElem?_read, List.getElem?_take]
  by_cases hi : i < (s.readSpan o).length
  · have hhigh : o + i < s.high := by
      simp only [readSpan] at hi
      omega
    have hlt := Nat.mod_lt o (h.capacity_pos (Nat.zero_lt_of_lt hhigh))
    have hm : (o + i) % s.capacity = (s.readSpan o).start + i :=
      Nat.add_mod_of_mod_add_lt (by simp only [readSpan] at hi; omega)
    rw [if_pos hi, if_pos hi, ← hm, h.cell _ (by omega) hhigh, List.getElem?_drop]
  · rw [if_neg hi, if_neg hi]

theorem receive (h : s.Keeps stream) (r : Reading) :
    (s.receive r).Keeps (stream ++ s.intake r) := by
  rcases s.receive_cases r with ⟨hr, hi⟩ | ⟨hr, hi⟩ | ⟨span, data, hs, _, hd, hr, hi⟩
  · rw [hr, hi, List.append_nil]
    exact h
  · rw [hr, hi, List.append_nil]
    exact h.finish
  · rw [hr, hi]
    exact h.append hs hd

end Keeps
end Source

theorem Flow.keeps_act {f : Flow} (h : f.source.Keeps f.stream) (a : Source.Action) :
    (f.act a).source.Keeps (f.act a).stream := by
  cases a with
  | reserve => exact h.reserve
  | receive r => exact h.receive r
  | attach => exact h.attach
  | detach id => exact h.detach id
  | release id => exact h.release id
  | fetch id => exact h.fetch id

theorem Flow.keeps_run (z : Sizing) (actions : List Source.Action) :
    (run z actions).source.Keeps (run z actions).stream :=
  run_induction (motive := fun f => f.source.Keeps f.stream) z actions (Source.keeps_start z)
    fun _ a h => keeps_act h a

/-- Whatever has happened to a source: it holds no more than fits in, from a boundary of blocks on;
every cursor stands within what is resident, with all that it was handed; each resident offset has
the byte of the stream in its cell; the cells reserved for a read lie where the next byte goes, in a
row, and hold nothing that is resident; no eviction frees more than there is, and no cell is read
that was not written. -/
theorem Flow.run_representation (z : Sizing) (actions : List Source.Action) :
    let s := (run z actions).source
    let stream := (run z actions).stream
    s.used ≤ s.capacity ∧
    s.sizing.blockSize ∣ s.floor ∧
    (∀ id c, s.cursors.get? id = some c →
      s.floor ≤ c.offset ∧ c.offset + c.available ≤ s.floor + s.used) ∧
    (∀ i, s.floor ≤ i → i < s.floor + s.used →
      ∃ byte, stream[i]? = some byte ∧ s.ring.cell? (i % s.capacity) = some byte) ∧
    (∀ span, s.reserved = some span →
      span.start = (s.floor + s.used) % s.capacity ∧
      span.start + span.length ≤ s.capacity ∧
      ∀ i, s.floor ≤ i → i < s.floor + s.used →
        ¬(span.start ≤ i % s.capacity ∧ i % s.capacity < span.start + span.length)) ∧
    (∀ id t, t = s.commit id ∨ t = { s with cursors := s.cursors.erase id } →
      ∀ m, t.slowest? = some m →
        t.floor ≤ m ∧ (m - t.floor) / t.sizing.blockSize * t.sizing.blockSize ≤ t.used) ∧
    (∀ id c, s.cursors.get? id = some c → c.offset < s.floor + s.used →
      (s.readSpan c.offset).start + (s.readSpan c.offset).length ≤ s.ring.cells.size) := by
  intro s stream
  have h : s.Keeps stream := keeps_run z actions
  refine ⟨h.used_le, h.aligned, h.cursor, ?_, ?_, ?_, fun _ c _ hlt => h.readSpan_le hlt⟩
  · intro i hi hj
    have hlt : i < stream.length := h.high_eq ▸ hj
    have hs : stream[i]? = some stream[i] := List.getElem?_eq_getElem hlt
    exact ⟨stream[i], hs, (h.cell i hi hj).trans hs⟩
  · intro span hs
    obtain ⟨rfl, hroom, -⟩ := h.reserved span hs
    exact ⟨rfl, h.writeSpan_le, fun i hi hj => h.writeSpan_disjoint hroom hi hj⟩
  · intro id t ht m hm
    have hk : t.Keeps stream := by
      rcases ht with rfl | rfl
      · exact h.commit id
      · exact h.erase id
    have hle := hk.slowest?_le_high hm
    have hfreed := Nat.div_mul_le_self (m - t.floor) t.sizing.blockSize
    refine ⟨hk.floor_le_slowest? hm, ?_⟩
    simp only [Source.high] at hle
    omega

end MediaRelay
