import MediaRelay.Proofs.Stream.Trimming

/-! # The window for joining

A cursor can join a source as long as nothing has been evicted, and then it finds the whole stream.
The floor never comes down again, so a window that has closed stays closed. What closes it is the
first eviction: the ring is three quarters full then, and every cursor has left a block behind. A
source that nobody reads keeps its window open, and so does one whose stream is too short for three
quarters of the ring, even when it has been read to the end.
-/
namespace MediaRelay
namespace Source

theorem isSome_attach?_iff (s : Source) : s.attach?.isSome ↔ s.floor = 0 := by
  unfold attach?
  split
  · rename_i hz
    exact ⟨fun _ => hz, fun _ => rfl⟩
  · rename_i hne
    exact ⟨fun h => absurd h (by simp), fun hz => absurd hz hne⟩

theorem attach?_eq_some {s t : Source} {id : CursorId} (h : s.attach? = some (id, t)) :
    s.floor = 0 ∧ id = s.nextCursor ∧
      t = { s with cursors := s.cursors.put s.nextCursor {}, nextCursor := s.nextCursor + 1 } := by
  unfold attach? at h
  split at h
  · rename_i hz
    cases h
    exact ⟨hz, rfl, rfl⟩
  · cases h

theorem nextCursor_le_act (s : Source) (a : Action) : s.nextCursor ≤ (s.act a).nextCursor := by
  cases a with
  | reserve =>
    simp only [act, reserve?]
    split <;> exact Nat.le_refl _
  | receive r => exact Nat.le_of_eq (s.receive_nextCursor r).symm
  | attach =>
    simp only [act, attach?]
    split
    · exact Nat.le_succ _
    · exact Nat.le_refl _
  | detach id =>
    simp only [act, detach]
    split <;> simp
  | release id => simp [act, release, commit]
  | fetch id =>
    rcases s.fetch_cases id with ⟨_, he⟩ | ⟨_, _, _, he⟩ | ⟨_, _, _, he⟩ <;> simp [act, he]

theorem isSome_get?_of_act {s : Source} {a : Action} {id : CursorId}
    (h : ((s.act a).cursors.get? id).isSome) :
    (s.cursors.get? id).isSome ∨ a = .attach ∧ id < (s.act a).nextCursor := by
  cases a with
  | reserve =>
    left
    simp only [act, reserve?] at h
    split at h <;> exact h
  | receive r =>
    left
    simpa only [act, receive_cursors] using h
  | attach =>
    simp only [act, attach?] at h ⊢
    split at h
    · rename_i hz
      rw [if_pos hz]
      simp only [Option.map_some, Option.getD_some, Roster.get?_put] at h ⊢
      by_cases hid : id = s.nextCursor
      · exact Or.inr ⟨trivial, hid ▸ Nat.lt_succ_self _⟩
      · rw [if_neg hid] at h
        exact Or.inl h
    · exact Or.inl h
  | detach j =>
    left
    simp only [act, detach] at h
    split at h
    · rw [evict_cursors, Roster.get?_erase] at h
      split at h
      · cases h
      · exact h
    · exact h
  | release j =>
    left
    simp only [act, release, commit, evict_cursors, Roster.get?_modify] at h
    split at h
    · simpa using h
    · exact h
  | fetch j =>
    left
    rcases s.fetch_cases j with ⟨_, he⟩ | ⟨_, _, _, he⟩ | ⟨c, hc, _, he⟩ <;> rw [act, he] at h
    · exact h
    · exact h
    · rw [Roster.get?_modify] at h
      split at h
      · simpa using h
      · exact h

/-- The first eviction finds the ring three quarters full, and leaves behind a block that the
slowest cursor has passed. -/
theorem first_eviction {s : Source} (hz : s.floor = 0) {a : Action} (hne : (s.act a).floor ≠ 0) :
    s.capacity * 3 / 4 ≤ s.used ∧
      ∃ m, (s.act a).slowest? = some m ∧ s.sizing.blockSize ≤ m := by
  rcases s.act_cases a with ⟨cs, he⟩ | ⟨hfloor, _⟩
  · rw [he] at hne ⊢
    refine ⟨evict_gate (s := { s with cursors := cs }) hz hne, ?_⟩
    obtain ⟨freed, hevict, hblocks, hfreed⟩ := evict_spec { s with cursors := cs }
    have hpos : 0 < freed := by
      rw [hevict] at hne
      change s.floor + freed ≠ 0 at hne
      omega
    rcases hfreed with hnone | ⟨m, hm, hle⟩
    · omega
    · change s.floor + freed ≤ m at hle
      refine ⟨m, (evict_slowest? _).trans hm, ?_⟩
      have hblock : s.sizing.blockSize ≤ freed := Nat.le_of_dvd hpos hblocks
      omega
  · exact absurd (hfloor.trans hz) hne

theorem floor_act_of_deserted {s : Source} {a : Action}
    (h : ∀ id, (s.act a).cursors.get? id = none) : (s.act a).floor = s.floor := by
  rcases s.act_cases a with ⟨cs, he⟩ | ⟨hfloor, _⟩
  · rw [he] at h ⊢
    obtain ⟨freed, hevict, _, hfreed⟩ := evict_spec { s with cursors := cs }
    rcases hfreed with rfl | ⟨m, hm, _⟩
    · rw [hevict]
      rfl
    · obtain ⟨⟨id, c, hc, _⟩, _⟩ := (slowest?_eq_some_iff _ m).mp hm
      rw [← evict_cursors, h id] at hc
      cases hc
  · exact hfloor

end Source

namespace Flow

theorem floor_le_foldl (f : Flow) (actions : List Source.Action) :
    f.source.floor ≤ (actions.foldl act f).source.floor :=
  List.foldlRecOn (motive := fun g => f.source.floor ≤ g.source.floor) actions act (Nat.le_refl _)
    fun g h a _ => Nat.le_trans h (g.source.floor_le_act a)

theorem nextCursor_le_foldl (f : Flow) (actions : List Source.Action) :
    f.source.nextCursor ≤ (actions.foldl act f).source.nextCursor :=
  List.foldlRecOn (motive := fun g => f.source.nextCursor ≤ g.source.nextCursor) actions act
    (Nat.le_refl _) fun g h a _ => Nat.le_trans h (g.source.nextCursor_le_act a)

theorem lt_nextCursor_run (z : Sizing) (actions : List Source.Action) {id : CursorId}
    (h : ((run z actions).source.cursors.get? id).isSome) :
    id < (run z actions).source.nextCursor := by
  refine run_induction (motive := fun f =>
    ∀ id, (f.source.cursors.get? id).isSome → id < f.source.nextCursor) z actions ?_ ?_ id h
  · intro id hid
    cases hid
  · intro f a ih id hid
    rcases Source.isSome_get?_of_act hid with hold | ⟨_, hlt⟩
    · exact Nat.lt_of_lt_of_le (ih id hold) (f.source.nextCursor_le_act a)
    · exact hlt

theorem deserted_foldl {f : Flow} {actions : List Source.Action}
    (hnone : ∀ id, f.source.cursors.get? id = none) (hstay : ∀ a ∈ actions, a ≠ .attach) :
    (actions.foldl act f).source.floor = f.source.floor := by
  have h : (∀ id, (actions.foldl act f).source.cursors.get? id = none) ∧
      (actions.foldl act f).source.floor = f.source.floor := by
    refine List.foldlRecOn (motive := fun g => (∀ id, g.source.cursors.get? id = none) ∧
      g.source.floor = f.source.floor) actions act ⟨hnone, rfl⟩ ?_
    rintro g ⟨hg, hfloor⟩ a ha
    have hnext : ∀ id, (g.source.act a).cursors.get? id = none := by
      intro id
      apply Option.not_isSome_iff_eq_none.mp
      intro hid
      rcases Source.isSome_get?_of_act hid with hold | ⟨hattach, _⟩
      · simp [hg id] at hold
      · exact hstay a ha hattach
    exact ⟨hnext, (Source.floor_act_of_deserted hnext).trans hfloor⟩
  exact h.2

/-- In whatever order things happen to a source: its floor never comes down, and a cursor can join
exactly while it is 0, so once none can join, none ever can. A cursor that joins has an id that none
before it had, stands at the start of the stream, and all that has come in is resident; the cursors
before it stay as they are. The first eviction comes when the ring is three quarters full and all
cursors that there are have committed a block. While there is no cursor, nothing is evicted, so the
first cursor can always join. As long as less has come in than three quarters of the ring, a cursor
can join. -/
theorem join_window (z : Sizing) (actions more : List Source.Action) :
    let f := run z actions
    let g := run z (actions ++ more)
    f.source.floor ≤ g.source.floor ∧
    (f.source.attach?.isSome ↔ f.source.floor = 0) ∧
    (f.source.attach? = none → g.source.attach? = none) ∧
    (∀ id t, f.source.attach? = some (id, t) →
      (f.act .attach).source = t ∧
      (∀ before after j u, actions = before ++ .attach :: after →
        (run z before).source.attach? = some (j, u) → j < id) ∧
      f.source.cursors.get? id = none ∧
      t.cursors.get? id = some ⟨0, 0⟩ ∧
      (∀ j, j ≠ id → t.cursors.get? j = f.source.cursors.get? j) ∧
      t.floor = 0 ∧ t.used = f.stream.length ∧
      ∀ i < f.stream.length, t.ring.cell? (i % t.capacity) = f.stream[i]?) ∧
    (∀ a, f.source.floor = 0 → (f.act a).source.floor ≠ 0 →
      f.source.capacity * 3 / 4 ≤ f.source.used ∧
      (∃ id, ((f.act a).source.cursors.get? id).isSome) ∧
      ∀ id c, (f.act a).source.cursors.get? id = some c → f.source.sizing.blockSize ≤ c.offset) ∧
    ((∀ id, f.source.cursors.get? id = none) → (∀ a ∈ more, a ≠ .attach) →
      g.source.floor = f.source.floor) ∧
    ((∀ a ∈ actions, a ≠ .attach) → f.source.attach?.isSome) ∧
    (f.stream.length < f.source.capacity * 3 / 4 → f.source.attach?.isSome) := by
  intro f g
  have hg : g = more.foldl act f := run_append z actions more
  have hk : f.source.Keeps f.stream := keeps_run z actions
  have hfloor : f.source.floor ≤ g.source.floor := hg ▸ floor_le_foldl f more
  refine ⟨hfloor, f.source.isSome_attach?_iff, ?_, ?_, ?_, ?_, ?_, ?_⟩
  · intro hnone
    have hclosed : f.source.floor ≠ 0 := by
      rw [ne_eq, ← Source.isSome_attach?_iff, hnone]
      exact Bool.false_ne_true
    apply Option.not_isSome_iff_eq_none.mp
    rw [Source.isSome_attach?_iff]
    omega
  · intro id t hs
    obtain ⟨hz, rfl, rfl⟩ := Source.attach?_eq_some hs
    have hhigh : f.source.used = f.stream.length := by
      rw [← hk.high_eq, Source.high, hz, Nat.zero_add]
    refine ⟨by simp [act, Source.act, hs], ?_, ?_, ?_, ?_, hz, hhigh, ?_⟩
    · rintro before after j u hsplit hu
      obtain ⟨_, rfl, hafter⟩ := Source.attach?_eq_some hu
      have hjoined : ((run z before).act .attach).source.nextCursor =
          (run z before).source.nextCursor + 1 := by
        simp [act, Source.act, hu, hafter]
      have hle := nextCursor_le_foldl ((run z before).act .attach) after
      rw [← List.foldl_cons, ← run_append, ← hsplit, hjoined] at hle
      exact hle
    · apply Option.not_isSome_iff_eq_none.mp
      intro hid
      exact Nat.lt_irrefl _ (lt_nextCursor_run z actions hid)
    · simp [Roster.get?_put]
    · intro j hj
      simp [Roster.get?_put, hj]
    · intro i hi
      exact hk.cell i (hz ▸ Nat.zero_le i) (hk.high_eq ▸ hi)
  · intro a hz hne
    obtain ⟨hfull, m, hm, hblock⟩ := Source.first_eviction hz hne
    obtain ⟨⟨id, c, hc, _⟩, hslow⟩ := (Source.slowest?_eq_some_iff _ m).mp hm
    exact ⟨hfull, ⟨id, Option.isSome_iff_exists.mpr ⟨c, hc⟩⟩,
      fun j d hd => Nat.le_trans hblock (hslow j d hd)⟩
  · intro hnone hstay
    rw [hg]
    exact deserted_foldl hnone hstay
  · intro hstay
    rw [Source.isSome_attach?_iff]
    exact deserted_foldl (f := start z) (fun _ => rfl) hstay
  · intro hshort
    rw [Source.isSome_attach?_iff]
    apply Decidable.byContradiction
    intro hne
    have hlate := (trimmed_run z actions).late hne
    rw [hk.high_eq] at hlate
    exact absurd hshort (Nat.not_lt_of_le hlate)

-- Three of four bytes are there, and the only cursor commits the first of them.
example :
    let takeIn (byte : UInt8) : List Source.Action := [.reserve, .receive (.bytes ⟨#[byte]⟩)]
    let f := run ⟨1, 4⟩ ([.attach] ++ takeIn 5 ++ takeIn 6 ++ takeIn 7 ++ [.fetch 1])
    f.source.attach?.isSome ∧ (f.act (.release 1)).source.attach?.isNone := by
  decide +kernel

end Flow
end MediaRelay
