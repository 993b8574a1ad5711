import MediaRelay.Proofs.Stream.Floor
import MediaRelay.Proofs.Stream.Progress

/-! # How far evictions go

When every cursor has read all there is, the last eviction has left less than a block, or nothing
has been evicted at all because the ring has never been three quarters full. Which of the two it is
depends only on the length of what has come in.
-/
namespace MediaRelay
namespace Source

theorem evict_gate {s : Source} (hz : s.floor = 0) (hne : s.evict.floor ≠ 0) :
    s.capacity * 3 / 4 ≤ s.used := by
  apply Nat.le_of_not_lt
  intro hlow
  apply hne
  unfold evict evict?
  cases s.slowest? with
  | none => exact hz
  | some m =>
    by_cases hnear : m < s.floor + s.sizing.blockSize
    · simpa only [if_pos hnear, Option.getD_none] using hz
    · have hgate : s.floor = 0 ∧ s.used < s.capacity * 3 / 4 := ⟨hz, hlow⟩
      simpa only [if_neg hnear, if_pos hgate, Option.getD_none] using hz

/-- Where the floor can stand once all that is resident has been read, and when it has been raised
at all. -/
structure Trimmed (s : Source) : Prop where
  near : s.slowest? = some s.high →
    s.high < s.floor + s.sizing.blockSize ∨ s.floor = 0 ∧ s.used < s.capacity * 3 / 4
  late : s.floor ≠ 0 → s.capacity * 3 / 4 ≤ s.high

theorem trimmed_start (z : Sizing) : (start z).Trimmed where
  near := by
    intro h
    cases h
  late := fun h => absurd rfl h

namespace Keeps
variable {s : Source} {stream : List UInt8}

theorem trimmed_evict (h : s.Keeps stream) (hlate : s.floor ≠ 0 → s.capacity * 3 / 4 ≤ s.high) :
    s.evict.Trimmed := by
  have hhigh := h.evict_high
  refine ⟨?_, ?_⟩
  · intro hm
    rw [evict_slowest?, hhigh] at hm
    rw [evict_sizing, evict_capacity, hhigh]
    exact evict_thorough h.block_pos hm
  · intro hne
    rw [evict_capacity, hhigh]
    by_cases hz : s.floor = 0
    · have hgate := evict_gate hz hne
      simp only [high]
      omega
    · exact hlate hz

theorem trimmed_release (h : s.Keeps stream) (ht : s.Trimmed) (id : CursorId) :
    (s.release id).Trimmed :=
  (h.commit id).trimmed_evict ht.late

theorem trimmed_detach (h : s.Keeps stream) (ht : s.Trimmed) (id : CursorId) :
    (s.detach id).Trimmed := by
  unfold Source.detach
  split
  · exact (h.erase id).trimmed_evict ht.late
  · exact ht

theorem trimmed_attach (h : s.Keeps stream) (ht : s.Trimmed) : (s.act .attach).Trimmed := by
  have hb := h.block_pos
  simp only [act, attach?]
  split
  · rename_i hz
    refine ⟨?_, ht.late⟩
    intro hm
    left
    -- The new cursor has not read anything, so there is nothing to read.
    have hle := ((slowest?_eq_some_iff _ _).mp hm).2 s.nextCursor {} (by simp [Roster.get?_put])
    exact Nat.lt_of_le_of_lt hle (Nat.lt_add_left s.floor hb)
  · exact ht

theorem trimmed_fetch (ht : s.Trimmed) (id : CursorId) : (s.fetch id).2.Trimmed := by
  rcases s.fetch_cases id with ⟨_, he⟩ | ⟨_, _, _, he⟩ | ⟨c, _, _, he⟩
  · simpa only [he] using ht
  · simpa only [he] using ht
  · rw [he]
    have hsame := s.slowest?_modify id (fun d => ⟨d.offset, (s.readSpan c.offset).length⟩)
      fun _ => rfl
    exact ⟨fun hm => ht.near (hsame.symm.trans hm), ht.late⟩

theorem trimmed_receive (h : s.Keeps stream) (ht : s.Trimmed) (r : Reading) :
    (s.receive r).Trimmed := by
  rcases s.receive_cases r with ⟨hr, _⟩ | ⟨hr, _⟩ | ⟨span, data, _, hpos, _, hr, _⟩
  · rw [hr]
    exact ht
  · rw [hr]
    exact ⟨ht.near, ht.late⟩
  · rw [hr]
    refine ⟨?_, ?_⟩
    · intro hm
      have hle := h.slowest?_le_high (m := (s.append span data).high) hm
      simp only [Source.append, high] at hle
      omega
    · intro hne
      exact Nat.le_trans (ht.late hne) (Nat.add_le_add_left (Nat.le_add_right _ _) _)

end Keeps

theorem trimmed_reserve {s : Source} (ht : s.Trimmed) : (s.act .reserve).Trimmed := by
  simp only [act, reserve?]
  split
  · exact ⟨ht.near, ht.late⟩
  · exact ht

/-- When all cursors have read everything, the floor follows from the length of the stream. -/
theorem Trimmed.floor_eq {s : Source} {stream : List UInt8} (ht : s.Trimmed) (h : s.Keeps stream)
    (hm : s.slowest? = some s.high) :
    s.floor = if s.high < s.capacity * 3 / 4 then 0
      else s.sizing.blockSize * (s.high / s.sizing.blockSize) := by
  split
  · rename_i hlow
    exact Decidable.byContradiction fun hne => absurd (ht.late hne) (Nat.not_le_of_lt hlow)
  · rename_i hfull
    have hnear : s.high < s.floor + s.sizing.blockSize := by
      rcases ht.near hm with hnear | ⟨hz, hused⟩
      · exact hnear
      · simp only [high] at hfull
        omega
    exact h.floor_eq_of_near (Nat.le_add_right _ _) hnear

/-- A new cursor finds the start of the stream if and only if the ring has never been three quarters
full. -/
theorem Trimmed.floor_eq_zero_iff {s : Source} {stream : List UInt8} (ht : s.Trimmed)
    (h : s.Keeps stream) (hroomy : s.sizing.Roomy) (hm : s.slowest? = some s.high) :
    s.floor = 0 ↔ s.high < s.capacity * 3 / 4 := by
  have hb := h.block_pos
  have h4 : 4 * s.sizing.blockSize ≤ s.capacity := hroomy
  rw [ht.floor_eq h hm]
  split
  · rename_i hlow
    exact ⟨fun _ => hlow, fun _ => rfl⟩
  · rename_i hfull
    have hpos : 0 < s.high / s.sizing.blockSize := Nat.div_pos (by omega) hb
    have hne : s.sizing.blockSize * (s.high / s.sizing.blockSize) ≠ 0 :=
      Nat.ne_of_gt (Nat.mul_pos hb hpos)
    exact ⟨fun hz => absurd hz hne, fun hlow => absurd hlow hfull⟩

end Source

namespace Flow

theorem trimmed_act {f : Flow} (h : f.source.Keeps f.stream) (ht : f.source.Trimmed)
    (a : Source.Action) : (f.act a).source.Trimmed := by
  cases a with
  | reserve => exact Source.trimmed_reserve ht
  | receive r => exact h.trimmed_receive ht r
  | attach => exact h.trimmed_attach ht
  | detach id => exact h.trimmed_detach ht id
  | release id => exact h.trimmed_release ht id
  | fetch id => exact Source.Keeps.trimmed_fetch ht id

theorem trimmed_run (z : Sizing) (actions : List Source.Action) :
    (run z actions).source.Trimmed := by
  have h : (run z actions).source.Keeps (run z actions).stream ∧ (run z actions).source.Trimmed :=
    run_induction (motive := fun f => f.source.Keeps f.stream ∧ f.source.Trimmed) z actions
      ⟨Source.keeps_start z, Source.trimmed_start z⟩
      fun _ a h => ⟨keeps_act h.1 a, trimmed_act h.1 h.2 a⟩
  exact h.2

end Flow
end MediaRelay
