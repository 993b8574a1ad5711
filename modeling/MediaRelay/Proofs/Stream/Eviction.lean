import MediaRelay.Stream.Source

/-! # Eviction

An eviction frees whole blocks below the slowest cursor and leaves all else as it is. It is
thorough: what still stands in the way of a further block afterwards is a cursor, or the rule that
nothing is evicted before the ring has first been three quarters full.
-/
namespace MediaRelay.Source

theorem slowest?_eq_some_iff (s : Source) (m : Nat) :
    s.slowest? = some m ↔
      (∃ id c, s.cursors.get? id = some c ∧ c.offset = m) ∧
        ∀ id c, s.cursors.get? id = some c → m ≤ c.offset := by
  simp only [slowest?, List.min?_eq_some_iff, List.mem_map, Roster.mem_values_iff]
  constructor
  · rintro ⟨⟨c, ⟨id, hc⟩, ho⟩, hm⟩
    exact ⟨⟨id, c, hc, ho⟩, fun j d hd => hm d.offset ⟨d, ⟨j, hd⟩, rfl⟩⟩
  · rintro ⟨⟨id, c, hc, ho⟩, hm⟩
    refine ⟨⟨c, ⟨id, hc⟩, ho⟩, ?_⟩
    rintro _ ⟨d, ⟨j, hd⟩, rfl⟩
    exact hm j d hd

theorem slowest?_modify (s : Source) (id : CursorId) (f : Cursor → Cursor)
    (hf : ∀ c, (f c).offset = c.offset) :
    slowest? { s with cursors := s.cursors.modify id f } = s.slowest? := by
  simp only [slowest?, Roster.values, Roster.modify, List.map_map]
  congr 1
  apply List.map_congr_left
  intro e _
  by_cases he : e.1 = id <;> simp [he, hf]

/-- The freed bytes are whole blocks that every cursor has passed. -/
theorem evict_spec (s : Source) : ∃ freed,
    s.evict = { s with floor := s.floor + freed, used := s.used - freed } ∧
      s.sizing.blockSize ∣ freed ∧
      (freed = 0 ∨ ∃ m, s.slowest? = some m ∧ s.floor + freed ≤ m) := by
  unfold evict evict?
  cases hm : s.slowest? with
  | none => exact ⟨0, rfl, Nat.dvd_zero _, Or.inl rfl⟩
  | some m =>
    by_cases hlow : m < s.floor + s.sizing.blockSize
    · simp only [if_pos hlow]
      exact ⟨0, rfl, Nat.dvd_zero _, Or.inl rfl⟩
    · by_cases hgate : s.floor = 0 ∧ s.used < s.capacity * 3 / 4
      · simp only [if_neg hlow, if_pos hgate]
        exact ⟨0, rfl, Nat.dvd_zero _, Or.inl rfl⟩
      · simp only [if_neg hlow, if_neg hgate]
        refine ⟨_, rfl, Nat.dvd_mul_left _ _, Or.inr ⟨m, rfl, ?_⟩⟩
        have hle := Nat.div_mul_le_self (m - s.floor) s.sizing.blockSize
        omega

section Frame
variable (s : Source)

@[simp] theorem evict_sizing : s.evict.sizing = s.sizing := by
  obtain ⟨_, h, _⟩ := s.evict_spec
  rw [h]

@[simp] theorem evict_capacity : s.evict.capacity = s.capacity := by
  simp only [capacity, evict_sizing]

@[simp] theorem evict_ring : s.evict.ring = s.ring := by
  obtain ⟨_, h, _⟩ := s.evict_spec
  rw [h]

@[simp] theorem evict_cursors : s.evict.cursors = s.cursors := by
  obtain ⟨_, h, _⟩ := s.evict_spec
  rw [h]

@[simp] theorem evict_nextCursor : s.evict.nextCursor = s.nextCursor := by
  obtain ⟨_, h, _⟩ := s.evict_spec
  rw [h]

@[simp] theorem evict_ended : s.evict.ended = s.ended := by
  obtain ⟨_, h, _⟩ := s.evict_spec
  rw [h]

@[simp] theorem evict_reserved : s.evict.reserved = s.reserved := by
  obtain ⟨_, h, _⟩ := s.evict_spec
  rw [h]

@[simp] theorem evict_slowest? : s.evict.slowest? = s.slowest? := by
  simp only [slowest?, evict_cursors]

end Frame

theorem evict_high {s : Source} (h : ∀ m, s.slowest? = some m → m ≤ s.high) :
    s.evict.high = s.high := by
  obtain ⟨freed, he, _, hf⟩ := s.evict_spec
  rw [he]
  rcases hf with rfl | ⟨m, hm, hle⟩
  · rfl
  · have hh := h m hm
    simp only [high] at hh ⊢
    omega

theorem evict_used_le (s : Source) : s.evict.used ≤ s.used := by
  obtain ⟨freed, he, _⟩ := s.evict_spec
  rw [he]
  exact Nat.sub_le _ _

/-- After an eviction the slowest cursor is within a block of the floor, unless the ring has not yet
been three quarters full. -/
theorem evict_thorough {s : Source} (hb : 0 < s.sizing.blockSize) {m : Nat}
    (hm : s.slowest? = some m) :
    m < s.evict.floor + s.sizing.blockSize ∨
      (s.evict.floor = 0 ∧ s.evict.used < s.capacity * 3 / 4) := by
  unfold evict evict?
  rw [hm]
  by_cases hlow : m < s.floor + s.sizing.blockSize
  · simp only [if_pos hlow]
    exact Or.inl hlow
  · by_cases hgate : s.floor = 0 ∧ s.used < s.capacity * 3 / 4
    · simp only [if_neg hlow, if_pos hgate]
      exact Or.inr hgate
    · simp only [if_neg hlow, if_neg hgate]
      left
      have hr := Nat.mod_lt (m - s.floor) hb
      have hd := Nat.div_add_mod' (m - s.floor) s.sizing.blockSize
      simp only [Option.getD_some]
      omega

end MediaRelay.Source
