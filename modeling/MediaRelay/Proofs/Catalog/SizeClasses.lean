import MediaRelay.Catalog.Penalty

/-! # Classes of sizes

Thresholds and the edge of what is small cut the sizes into classes, and the penalty for a size is
the number of cuts between it and the size that is asked for. On the way from one size to another
every cut is passed once, so penalties add up along the way. A detour passes every cut that has to
be passed, and maybe others, so the penalty is a distance. No order is asked of the thresholds, and
one that stands twice is a cut twice.
-/
namespace MediaRelay.Penalty

/-- The cut has the two sizes on different sides: one is above it and the other is not. -/
def Parts (cut a b : Nat) : Prop := ¬(cut < a ↔ cut < b)

instance (cut a b : Nat) : Decidable (Parts cut a b) := inferInstanceAs (Decidable ¬_)

/-- On the way from one size to another, both included. -/
def Between (a x b : Nat) : Prop := a ≤ x ∧ x ≤ b ∨ b ≤ x ∧ x ≤ a

instance (a x b : Nat) : Decidable (Between a x b) := inferInstanceAs (Decidable (_ ∨ _))

theorem bne_decide_iff_parts {cut a b : Nat} :
    (decide (cut < a) != decide (cut < b)) = decide (Parts cut a b) := by
  unfold Parts
  by_cases ha : cut < a <;> by_cases hb : cut < b <;> simp [ha, hb]

theorem sizeClass_eq (thresholds : List Nat) (small a b : Nat) :
    sizeClass thresholds small a b =
      (small :: thresholds).countP (fun cut => Parts cut a b) * resolution := by
  have hedge : (decide (a ≤ small) != decide (b ≤ small)) = decide (Parts small a b) := by
    have hnot : ∀ size, decide (size ≤ small) = !decide (small < size) := by
      intro size
      by_cases hsize : small < size <;> simp [hsize, Nat.not_le.mpr, Nat.not_lt.mp]
    rw [hnot, hnot, ← bne_decide_iff_parts]
    cases decide (small < a) <;> cases decide (small < b) <;> rfl
  simp only [sizeClass, bne_decide_iff_parts, hedge, List.countP_cons]
  by_cases hsmall : Parts small a b <;> simp [hsmall]

theorem parts_iff_of_between {a x b : Nat} (h : Between a x b) (cut : Nat) :
    (Parts cut b a ↔ Parts cut x a ∨ Parts cut b x) ∧ ¬(Parts cut x a ∧ Parts cut b x) := by
  unfold Parts Between at *
  omega

/-- Every cut between the ends is either before or behind a size on the way. -/
theorem countP_parts_add {a x b : Nat} (h : Between a x b) (cuts : List Nat) :
    cuts.countP (fun cut => Parts cut b a) =
      cuts.countP (fun cut => Parts cut x a) + cuts.countP (fun cut => Parts cut b x) := by
  induction cuts with
  | nil => rfl
  | cons cut rest ih =>
    obtain ⟨hiff, hnot⟩ := parts_iff_of_between h cut
    rw [List.countP_cons, List.countP_cons, List.countP_cons, ih]
    by_cases hbefore : Parts cut x a <;> by_cases hbehind : Parts cut b x
    · exact absurd ⟨hbefore, hbehind⟩ hnot
    · simp [hiff, hbefore, hbehind, Nat.add_right_comm]
    · simp [hiff, hbefore, hbehind, Nat.add_assoc]
    · simp [hiff, hbefore, hbehind]

theorem sizeClass_add {a x b : Nat} (h : Between a x b) (thresholds : List Nat) (small : Nat) :
    sizeClass thresholds small b a =
      sizeClass thresholds small x a + sizeClass thresholds small b x := by
  rw [sizeClass_eq, sizeClass_eq, sizeClass_eq, countP_parts_add h, Nat.add_mul]

theorem parts_comm {cut a b : Nat} : Parts cut a b ↔ Parts cut b a := by
  unfold Parts
  omega

/-- The cuts between two sizes: not below the smaller one, and below the larger one. -/
theorem parts_iff {cut a b : Nat} : Parts cut a b ↔ min a b ≤ cut ∧ cut < max a b := by
  unfold Parts
  omega

theorem sizeClass_comm (thresholds : List Nat) (small a b : Nat) :
    sizeClass thresholds small a b = sizeClass thresholds small b a := by
  rw [sizeClass_eq, sizeClass_eq]
  congr 2
  funext cut
  exact decide_eq_decide.mpr parts_comm

theorem sizeClass_eq_zero_iff (thresholds : List Nat) (small a b : Nat) :
    sizeClass thresholds small a b = 0 ↔ ∀ cut ∈ small :: thresholds, ¬Parts cut a b := by
  have hstep : resolution ≠ 0 := Nat.one_ne_zero
  rw [sizeClass_eq, Nat.mul_eq_zero, or_iff_left hstep, List.countP_eq_zero]
  simp only [decide_eq_true_eq]

theorem sizeClass_pos_of_parts {thresholds : List Nat} {small a b : Nat}
    (h : ∃ cut ∈ thresholds, Parts cut a b) : 0 < sizeClass thresholds small b a := by
  obtain ⟨cut, hcut, hparts⟩ := h
  apply Nat.pos_of_ne_zero
  intro hzero
  have hnone := (sizeClass_eq_zero_iff thresholds small b a).mp hzero
  exact hnone cut (List.mem_cons_of_mem small hcut) (parts_comm.mp hparts)

theorem countP_parts_le (a b c : Nat) (cuts : List Nat) :
    cuts.countP (fun cut => Parts cut a c) ≤
      cuts.countP (fun cut => Parts cut a b) + cuts.countP (fun cut => Parts cut b c) := by
  induction cuts with
  | nil => simp
  | cons cut rest ih =>
    have hone : Parts cut a c → Parts cut a b ∨ Parts cut b c := by
      unfold Parts
      omega
    rw [List.countP_cons, List.countP_cons, List.countP_cons]
    by_cases hac : Parts cut a c
    · rcases hone hac with hab | hbc
      · simp only [hac, hab, decide_true, if_true]
        omega
      · simp only [hac, hbc, decide_true, if_true]
        omega
    · simp only [hac, decide_false, Bool.false_eq_true, if_false]
      omega

/-- The penalty counts the thresholds between two sizes, and the edge of what is small if it lies
between them as well. So it is the same both ways, nothing exactly if no cut lies between the sizes,
the sum of the penalties for the parts of a way that goes in one direction, and never more than that
sum for any other way. It never exceeds one step for each cut, so that with fewer than 2^32 - 1
thresholds it is a number of 32 bits. -/
theorem sizeClass_is_distance (thresholds : List Nat) (small : Nat) :
    (∀ a b, sizeClass thresholds small a b =
      resolution * thresholds.countP (fun cut => min a b ≤ cut ∧ cut < max a b) +
        if min a b ≤ small ∧ small < max a b then resolution else 0) ∧
    (∀ a b, sizeClass thresholds small a b = sizeClass thresholds small b a) ∧
    (∀ a b, sizeClass thresholds small a b = 0 ↔
      ∀ cut ∈ small :: thresholds, ¬(min a b ≤ cut ∧ cut < max a b)) ∧
    (∀ a b c, a ≤ b → b ≤ c → sizeClass thresholds small a c =
      sizeClass thresholds small a b + sizeClass thresholds small b c) ∧
    (∀ a b c, sizeClass thresholds small a c ≤
      sizeClass thresholds small a b + sizeClass thresholds small b c) ∧
    ∀ a b, sizeClass thresholds small a b ≤ (thresholds.length + 1) * resolution := by
  refine ⟨?_, sizeClass_comm thresholds small, ?_, ?_, ?_, ?_⟩
  · intro a b
    simp only [sizeClass_eq, List.countP_cons, decide_eq_true_eq, parts_iff]
    split <;> simp only [resolution] <;> omega
  · intro a b
    rw [sizeClass_eq_zero_iff]
    simp only [parts_iff]
  · intro a b c hab hbc
    have hway : Between c b a := Or.inr ⟨hab, hbc⟩
    rw [sizeClass_add hway, sizeClass_comm thresholds small b c]
    omega
  · intro a b c
    have hle := countP_parts_le a b c (small :: thresholds)
    rw [sizeClass_eq, sizeClass_eq, sizeClass_eq, ← Nat.add_mul]
    exact Nat.mul_le_mul_right resolution hle
  · intro a b
    rw [sizeClass_eq]
    exact Nat.mul_le_mul_right resolution List.countP_le_length

/-- Thresholds out of order, one of them twice; one of them, and the edge of what is small, is the
smallest of the sizes. -/
theorem four_classes_on_the_way :
    352 ≤ 640 ∧ 640 ≤ 1280 ∧
      sizeClass [640, 352, 640] 352 352 1280 =
        sizeClass [640, 352, 640] 352 352 640 + sizeClass [640, 352, 640] 352 640 1280 ∧
      sizeClass [640, 352, 640] 352 352 640 = 2 ∧ sizeClass [640, 352, 640] 352 640 1280 = 2 := by
  have hfirst : 352 ≤ 640 := by decide
  have hsecond : 640 ≤ 1280 := by decide
  obtain ⟨-, -, -, hsum, -⟩ := sizeClass_is_distance [640, 352, 640] 352
  exact ⟨hfirst, hsecond, hsum 352 640 1280 hfirst hsecond, rfl, rfl⟩

end MediaRelay.Penalty
