import MediaRelay.Proofs.Stream.Residence

/-! # How the floor moves

The floor is raised by evictions alone, and an eviction follows whenever a cursor moves or leaves.
Once it has been raised it keeps up with the slowest cursor: it stands on the last boundary of
blocks that the slowest cursor has come to, so that no block is resident that all have passed. Only
a floor of 0 may stay behind, for then it is the rule of the three quarters that holds it back.
-/
namespace MediaRelay
namespace Source

theorem isSome_evict?_iff {s : Source} (hb : 0 < s.sizing.blockSize) :
    s.evict?.isSome ↔ s.floor < s.evict.floor := by
  unfold evict evict?
  cases s.slowest? with
  | none => simp
  | some m =>
    by_cases hlow : m < s.floor + s.sizing.blockSize
    · simp [hlow]
    · by_cases hgate : s.floor = 0 ∧ s.used < s.capacity * 3 / 4
      · simp only [if_neg hlow, if_pos hgate]
        simp
      · simp only [if_neg hlow, if_neg hgate, Option.isSome_some, Option.getD_some, true_iff]
        have hblocks : 0 < (m - s.floor) / s.sizing.blockSize := Nat.div_pos (by omega) hb
        have hfreed := Nat.mul_pos hblocks hb
        omega

/-- It frees space when the slowest cursor has left a block behind, but the first time not before
the ring is three quarters full. -/
theorem isSome_evict?_iff_due (s : Source) :
    s.evict?.isSome ↔ ∃ m, s.slowest? = some m ∧ s.floor + s.sizing.blockSize ≤ m ∧
      (s.floor = 0 → s.capacity * 3 / 4 ≤ s.used) := by
  unfold evict?
  cases s.slowest? with
  | none => simp
  | some m =>
    simp only [Option.some.injEq, exists_eq_left']
    by_cases hlow : m < s.floor + s.sizing.blockSize
    · rw [if_pos hlow]
      exact ⟨fun h => absurd h Bool.false_ne_true, fun h => absurd hlow (Nat.not_lt_of_le h.1)⟩
    · rw [if_neg hlow]
      by_cases hgate : s.floor = 0 ∧ s.used < s.capacity * 3 / 4
      · rw [if_pos hgate]
        refine ⟨fun h => absurd h Bool.false_ne_true, fun h => ?_⟩
        exact absurd hgate.2 (Nat.not_lt_of_le (h.2 hgate.1))
      · rw [if_neg hgate]
        refine ⟨fun _ => ⟨Nat.le_of_not_lt hlow, fun hz => ?_⟩, fun _ => rfl⟩
        exact Nat.le_of_not_lt fun hlt => hgate ⟨hz, hlt⟩

/-- An action ends in an eviction after it has changed the cursors, or it leaves the floor where it
is. Then it leaves the slowest cursor there as well, unless a new cursor joins at a floor of 0. -/
theorem act_cases (s : Source) (a : Action) :
    (∃ cs, s.act a = evict { s with cursors := cs }) ∨
      (s.act a).floor = s.floor ∧ ((s.act a).slowest? = s.slowest? ∨ s.floor = 0) := by
  cases a with
  | reserve =>
    right
    simp only [act, reserve?]
    split <;> exact ⟨rfl, Or.inl rfl⟩
  | receive r =>
    right
    rcases s.receive_cases r with ⟨hr, _⟩ | ⟨hr, _⟩ | ⟨_, _, _, _, _, hr, _⟩ <;>
      rw [act, hr] <;> exact ⟨rfl, Or.inl rfl⟩
  | attach =>
    right
    simp only [act, attach?]
    split
    · rename_i hz
      exact ⟨rfl, Or.inr hz⟩
    · exact ⟨rfl, Or.inl rfl⟩
  | detach id =>
    simp only [act, detach]
    split
    · exact Or.inl ⟨_, rfl⟩
    · exact Or.inr ⟨rfl, Or.inl rfl⟩
  | release id => exact Or.inl ⟨_, rfl⟩
  | fetch id =>
    right
    rcases s.fetch_cases id with ⟨_, he⟩ | ⟨_, _, _, he⟩ | ⟨c, _, _, he⟩ <;> rw [act, he]
    · exact ⟨rfl, Or.inl rfl⟩
    · exact ⟨rfl, Or.inl rfl⟩
    · exact ⟨rfl, Or.inl (s.slowest?_modify id _ fun _ => rfl)⟩

theorem sizing_act (s : Source) (a : Action) : (s.act a).sizing = s.sizing := by
  cases a with
  | reserve =>
    simp only [act, reserve?]
    split <;> rfl
  | receive r =>
    rcases s.receive_cases r with ⟨hr, _⟩ | ⟨hr, _⟩ | ⟨_, _, _, _, _, hr, _⟩ <;>
      simp only [act, hr] <;> rfl
  | attach =>
    simp only [act, attach?]
    split <;> rfl
  | detach id =>
    simp only [act, detach]
    split <;> simp
  | release id => simp [act, release, commit]
  | fetch id =>
    rcases s.fetch_cases id with ⟨_, he⟩ | ⟨_, _, _, he⟩ | ⟨_, _, _, he⟩ <;> simp only [act, he]

theorem act_of_client (s : Source) {a : Action} (ha : a.isClients = true) :
    (s.act a).ended = s.ended ∧ (s.act a).reserved = s.reserved := by
  cases a with
  | reserve => cases ha
  | receive r => cases ha
  | attach =>
    simp only [act, attach?]
    split <;> exact ⟨rfl, rfl⟩
  | detach id =>
    simp only [act, detach]
    split <;> simp
  | release id => simp [act, release, commit]
  | fetch id =>
    rcases s.fetch_cases id with ⟨_, he⟩ | ⟨_, _, _, he⟩ | ⟨_, _, _, he⟩ <;> simp [act, he]

theorem floor_le_evict (s : Source) : s.floor ≤ s.evict.floor := by
  obtain ⟨freed, he, _⟩ := s.evict_spec
  rw [he]
  exact Nat.le_add_right _ _

theorem floor_le_act (s : Source) (a : Action) : s.floor ≤ (s.act a).floor := by
  rcases s.act_cases a with ⟨cs, he⟩ | ⟨hfloor, _⟩
  · rw [he]
    exact floor_le_evict { s with cursors := cs }
  · exact Nat.le_of_eq hfloor.symm

/-- A floor that has been raised is less than a block behind the slowest cursor. -/
def Tight (s : Source) : Prop :=
  s.floor ≠ 0 → ∀ m, s.slowest? = some m → m < s.floor + s.sizing.blockSize

theorem tight_start (z : Sizing) : (start z).Tight := fun h => absurd rfl h

theorem tight_evict {s : Source} (hb : 0 < s.sizing.blockSize) : s.evict.Tight := by
  intro hfloor m hm
  rw [evict_slowest?] at hm
  rw [evict_sizing]
  rcases evict_thorough hb hm with hnear | ⟨hz, _⟩
  · exact hnear
  · exact absurd hz hfloor

theorem tight_act {s : Source} {stream : List UInt8} (h : s.Keeps stream) (ht : s.Tight)
    (a : Action) : (s.act a).Tight := by
  rcases s.act_cases a with ⟨cs, he⟩ | ⟨hfloor, hslow⟩
  · rw [he]
    exact tight_evict h.block_pos
  · intro hne m hm
    rw [hfloor] at hne ⊢
    rw [s.sizing_act a]
    rcases hslow with hslow | hz
    · exact ht hne m (hslow ▸ hm)
    · exact absurd hz hne

theorem Keeps.floor_eq_of_near {s : Source} {stream : List UInt8} (h : s.Keeps stream) {m : Nat}
    (hle : s.floor ≤ m) (hnear : m < s.floor + s.sizing.blockSize) :
    s.floor = s.sizing.blockSize * (m / s.sizing.blockSize) := by
  obtain ⟨k, hk⟩ := h.aligned
  have hdiv : m / s.sizing.blockSize = k := by
    apply Nat.div_eq_of_lt_le
    · rw [Nat.mul_comm, ← hk]
      exact hle
    · rw [Nat.succ_mul, Nat.mul_comm, ← hk]
      exact hnear
  rw [hdiv, hk]

theorem exists_slowest? {s : Source} (hsome : ∃ id, (s.cursors.get? id).isSome) :
    ∃ m, s.slowest? = some m := by
  obtain ⟨id, hid⟩ := hsome
  obtain ⟨c, hc⟩ := Option.isSome_iff_exists.mp hid
  have hmem : c.offset ∈ s.cursors.values.map Cursor.offset :=
    List.mem_map_of_mem ((s.cursors.mem_values_iff c).mpr ⟨id, hc⟩)
  exact Option.isSome_iff_exists.mp (List.isSome_min?_of_mem hmem)

end Source

namespace Flow

theorem sizing_run (z : Sizing) (actions : List Source.Action) :
    (run z actions).source.sizing = z.clamped :=
  run_induction (motive := fun f => f.source.sizing = z.clamped) z actions rfl
    fun f a h => (f.source.sizing_act a).trans h

theorem tight_run (z : Sizing) (actions : List Source.Action) :
    (run z actions).source.Tight := by
  have h : (run z actions).source.Keeps (run z actions).stream ∧ (run z actions).source.Tight :=
    run_induction (motive := fun f => f.source.Keeps f.stream ∧ f.source.Tight) z actions
      ⟨Source.keeps_start z, Source.tight_start z⟩
      fun _ a h => ⟨keeps_act h.1 a, Source.tight_act h.1 h.2 a⟩
  exact h.2

/-- Whatever has happened to a source: once anything has been evicted, the floor is the last
boundary of blocks that the slowest of its cursors has come to, and no block is resident that all of
them have passed. Whenever a cursor has moved or left, an eviction follows. It frees space when the
slowest cursor has left a block behind, but the first time not before the ring is three quarters
full; it tells so if and only if it has freed some; and it does so by raising the floor, for the
high end stays. -/
theorem floor_follows_slowest (z : Sizing) (actions : List Source.Action) :
    let s := (run z actions).source
    (0 < s.floor → (∃ id, (s.cursors.get? id).isSome) →
      (∃ m, s.slowest? = some m ∧ s.floor ≤ m ∧ m < s.floor + s.sizing.blockSize ∧
        s.floor = s.sizing.blockSize * (m / s.sizing.blockSize)) ∧
      ∀ k, s.floor ≤ s.sizing.blockSize * k →
        ∃ id c, s.cursors.get? id = some c ∧ c.offset < s.sizing.blockSize * (k + 1)) ∧
    (∀ id t, t = s.commit id ∨ t = { s with cursors := s.cursors.erase id } →
      (t.evict?.isSome ↔ ∃ m, t.slowest? = some m ∧ t.floor + t.sizing.blockSize ≤ m ∧
        (t.floor = 0 → t.capacity * 3 / 4 ≤ t.used)) ∧
      (t.evict?.isSome ↔ t.evict.used < t.used) ∧
      (t.evict?.isSome ↔ t.floor < t.evict.floor) ∧
      t.evict.floor + t.evict.used = t.floor + t.used) := by
  intro s
  have h : s.Keeps (run z actions).stream := keeps_run z actions
  have ht : s.Tight := tight_run z actions
  constructor
  · intro hpos hsome
    have hne : s.floor ≠ 0 := Nat.ne_of_gt hpos
    obtain ⟨m, hm⟩ := Source.exists_slowest? hsome
    have hle := h.floor_le_slowest? hm
    have hnear := ht hne m hm
    refine ⟨⟨m, hm, hle, hnear, h.floor_eq_of_near hle hnear⟩, ?_⟩
    intro k hk
    obtain ⟨⟨id, c, hc, hoffset⟩, _⟩ := (s.slowest?_eq_some_iff m).mp hm
    refine ⟨id, c, hc, ?_⟩
    rw [hoffset, Nat.mul_succ]
    omega
  · intro id t ht
    have hk : t.Keeps (run z actions).stream := by
      rcases ht with rfl | rfl
      · exact h.commit id
      · exact h.erase id
    have hhigh : t.evict.floor + t.evict.used = t.floor + t.used := hk.evict_high
    have hflag := Source.isSome_evict?_iff hk.block_pos
    refine ⟨t.isSome_evict?_iff_due, ?_, hflag, hhigh⟩
    rw [hflag]
    omega

-- The slower of two cursors leaves, and three blocks are free at once.
example :
    let takeIn (byte : UInt8) : List Source.Action := [.reserve, .receive (.bytes ⟨#[byte]⟩)]
    let pass : List Source.Action := [.fetch 1, .release 1]
    let f := run ⟨1, 4⟩
      ([.attach, .attach] ++ takeIn 5 ++ takeIn 6 ++ takeIn 7 ++ pass ++ pass ++ pass)
    f.source.floor = 0 ∧ (f.act (.detach 2)).source.floor = 3 := by
  decide +kernel

end Flow
end MediaRelay
