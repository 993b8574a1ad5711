import MediaRelay.Proofs.Stream.Floor

/-! # When producer and readers wait for each other

The producer waits for room for a block, and a reader waits for bytes past its cursor. Both at once
would last for ever. An eviction follows whenever a cursor moves or leaves, and if all cursors stand
at the high end afterwards, either less than a block is resident, or the ring is not three quarters
full. A ring of four blocks has room for another one in both cases. Between two evictions only the
producer raises the high end, and then the readers have something to read.

A ring does not have room for its blocks when the product of their size and their number has been
cut off. Then a stream that comes in byte by byte, each read at once, comes to a standstill.
-/
namespace MediaRelay
namespace Sizing

/-- Four blocks fit in. -/
def Roomy (z : Sizing) : Prop := 4 * z.blockSize ≤ z.capacity

instance (z : Sizing) : Decidable z.Roomy := inferInstanceAs (Decidable (_ ≤ _))

/-- There is room for a block beside all but one byte of a block, and beside all but one byte of
three quarters of the ring. -/
structure Ample (z : Sizing) : Prop where
  block : 2 * z.blockSize ≤ z.capacity + 1
  gate : z.capacity * 3 / 4 + z.blockSize ≤ z.capacity + 1

theorem Roomy.ample {z : Sizing} (h : z.Roomy) : z.Ample := by
  unfold Roomy at h
  constructor <;> omega

end Sizing

namespace Source

/-- When all that is resident has been read by all, there is room for a block. -/
def Supplied (s : Source) : Prop :=
  s.slowest? = some s.high → s.used + s.sizing.blockSize ≤ s.capacity

theorem supplied_start (z : Sizing) : (start z).Supplied := by
  intro h
  cases h

namespace Keeps
variable {s : Source} {stream : List UInt8}

theorem supplied_evict (h : s.Keeps stream) (hz : s.sizing.Ample) : s.evict.Supplied := by
  intro hm
  have hblock : 2 * s.sizing.blockSize ≤ s.capacity + 1 := hz.block
  have hlatest : s.capacity * 3 / 4 + s.sizing.blockSize ≤ s.capacity + 1 := hz.gate
  have hh := h.evict_high
  rw [evict_slowest?, hh] at hm
  rw [evict_sizing, evict_capacity]
  rcases evict_thorough h.block_pos hm with hlow | ⟨_, hgate⟩
  · rw [← hh] at hlow
    simp only [high] at hlow
    omega
  · omega

theorem supplied_attach (h : s.Keeps stream) (hz : s.sizing.Ample) (hs : s.Supplied) :
    (s.act .attach).Supplied := by
  have hb := h.block_pos
  have hblock : 2 * s.sizing.blockSize ≤ s.capacity + 1 := hz.block
  simp only [act, attach?]
  split
  · intro hm
    have hle := ((slowest?_eq_some_iff _ _).mp hm).2 s.nextCursor {} (by simp [Roster.get?_put])
    change s.floor + s.used ≤ 0 at hle
    change s.used + s.sizing.blockSize ≤ s.capacity
    omega
  · exact hs

theorem supplied_detach (h : s.Keeps stream) (hz : s.sizing.Ample) (hs : s.Supplied)
    (id : CursorId) : (s.detach id).Supplied := by
  unfold Source.detach
  split
  · exact (h.erase id).supplied_evict hz
  · exact hs

theorem supplied_fetch (hs : s.Supplied) (id : CursorId) : (s.fetch id).2.Supplied := by
  rcases s.fetch_cases id with ⟨_, he⟩ | ⟨_, _, _, he⟩ | ⟨c, _, _, he⟩
  · simpa only [he] using hs
  · simpa only [he] using hs
  · rw [he]
    intro hm
    have hsame := s.slowest?_modify id (fun d => ⟨d.offset, (s.readSpan c.offset).length⟩)
      fun _ => rfl
    exact hs (hsame.symm.trans hm)

theorem supplied_receive (h : s.Keeps stream) (hs : s.Supplied) (r : Reading) :
    (s.receive r).Supplied := by
  rcases s.receive_cases r with ⟨hr, _⟩ | ⟨hr, _⟩ | ⟨span, data, _, hpos, _, hr, _⟩
  · rw [hr]
    exact hs
  · rw [hr]
    exact hs
  · -- The slowest cursor stands below the new high end.
    intro hm
    rw [hr] at hm
    have hle := h.slowest?_le_high (m := (s.append span data).high) hm
    simp only [Source.append, high] at hle
    omega

end Keeps

theorem supplied_reserve {s : Source} (hs : s.Supplied) : (s.act .reserve).Supplied := by
  simp only [act, reserve?]
  split <;> exact hs

end Source

theorem Flow.supplied_act {f : Flow} (h : f.source.Keeps f.stream) (hz : f.source.sizing.Ample)
    (hs : f.source.Supplied) (a : Source.Action) : (f.act a).source.Supplied := by
  cases a with
  | reserve => exact Source.supplied_reserve hs
  | receive r => exact h.supplied_receive hs r
  | attach => exact h.supplied_attach hz hs
  | detach id => exact h.supplied_detach hz hs id
  | release id => exact (h.commit id).supplied_evict hz
  | fetch id => exact Source.Keeps.supplied_fetch hs id

theorem Flow.supplied_run {z : Sizing} (hz : z.clamped.Ample) (actions : List Source.Action) :
    (run z actions).source.Supplied := by
  have h : (run z actions).source.Keeps (run z actions).stream ∧
      (run z actions).source.sizing.Ample ∧ (run z actions).source.Supplied :=
    run_induction
      (motive := fun f => f.source.Keeps f.stream ∧ f.source.sizing.Ample ∧ f.source.Supplied)
      z actions ⟨Source.keeps_start z, hz, Source.supplied_start z⟩
      fun f a ⟨hk, ha, hs⟩ =>
        ⟨keeps_act hk a, f.source.sizing_act a ▸ ha, supplied_act hk ha hs a⟩
  exact h.2.2

namespace Source

theorem slowest?_of_all {s : Source} (hsome : ∃ id, (s.cursors.get? id).isSome) {m : Nat}
    (hall : ∀ id c, s.cursors.get? id = some c → c.offset = m) : s.slowest? = some m := by
  obtain ⟨id, hid⟩ := hsome
  obtain ⟨c, hc⟩ := Option.isSome_iff_exists.mp hid
  refine (s.slowest?_eq_some_iff m).mpr ⟨⟨id, c, hc, hall id c hc⟩, ?_⟩
  intro j d hd
  exact Nat.le_of_eq (hall j d hd).symm

theorem Supplied.room {s : Source} (hs : s.Supplied)
    (hsome : ∃ id, (s.cursors.get? id).isSome)
    (hall : ∀ id c, s.cursors.get? id = some c → c.offset = s.high) :
    s.used + s.sizing.blockSize ≤ s.capacity :=
  hs (slowest?_of_all hsome hall)

/-- A cursor waits exactly while it stands at the high end of a stream that goes on. -/
theorem Keeps.fetch_eq_wait_iff {s : Source} {stream : List UInt8} (h : s.Keeps stream)
    {id : CursorId} {c : Cursor} (hc : s.cursors.get? id = some c) :
    (s.fetch id).1 = .wait ↔ c.offset = s.high ∧ s.ended = false := by
  have hle := h.cursor id c hc
  rcases s.fetch_cases id with ⟨hn, _⟩ | ⟨d, hd, hge, he⟩ | ⟨d, hd, hlt, he⟩
  · rw [hn] at hc
    cases hc
  · have heq : d = c := Option.some.inj (hd.symm.trans hc)
    subst heq
    have hoff : d.offset = s.high := by omega
    rw [he]
    cases hend : s.ended with
    | false => simp [hoff]
    | true => simp
  · have heq : d = c := Option.some.inj (hd.symm.trans hc)
    subst heq
    rw [he]
    constructor
    · intro hw
      cases hw
    · rintro ⟨hoff, _⟩
      omega

end Source

namespace Source

end Source

namespace Flow

end Flow
end MediaRelay
