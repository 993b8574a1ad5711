import MediaRelay.Proofs.Stream.Draw
import MediaRelay.Proofs.Stream.Floor

/-! # The reads of a producer

A producer reads into the cells behind the last byte that has come in. So the length of a read hangs
on how much has come in, and on nothing else. Clients decide when a read is issued, and whether it
ever is, but the lengths follow one another in an order that the input alone determines.
-/
namespace MediaRelay
variable {σ : Type}

/-- The lengths of the next reads of an input that has brought so many bytes: as many as are asked
for, or all up to the last one. -/
def Sizing.readLengths (z : Sizing) (read : σ → Nat → Reading × σ) : Nat → σ → Nat → List Nat
  | 0, _, _ => []
  | n + 1, i, total =>
    let length := z.readLength total
    let next := read i length
    length :: (next.1.gain? length).elim [] fun gain => readLengths z read n next.2 (total + gain)

theorem Sizing.readLengths_prefix (z : Sizing) (read : σ → Nat → Reading × σ) (n m : Nat) (i : σ)
    (total : Nat) : z.readLengths read n i total <+: z.readLengths read (n + m) i total := by
  induction n generalizing i total with
  | zero => exact List.nil_prefix
  | succ n ih =>
    rw [Nat.succ_add]
    simp only [readLengths, List.prefix_cons_inj]
    cases (read i (z.readLength total)).1.gain? (z.readLength total) with
    | none => exact List.nil_prefix
    | some gain => exact ih _ _

namespace Draw
variable {read : σ → Nat → Reading × σ} {x y : Draw σ}

def ahead (read : σ → Nat → Reading × σ) (x : Draw σ) (n : Nat) : List Nat :=
  match x.source.reserved with
  | none =>
    if x.source.ended then [] else x.source.sizing.readLengths read n x.input x.stream.length
  | some span =>
    let next := read x.input span.length
    (next.1.gain? span.length).elim [] fun gain =>
      x.source.sizing.readLengths read n next.2 (x.stream.length + gain)

def Current (x : Draw σ) : Prop :=
  ∀ span, x.source.reserved = some span → x.asked.getLast? = some span.length

/-- What a move asks of the input: nothing, or one read. -/
structure Issues (read : σ → Nat → Reading × σ) (x : Draw σ) (new : List Nat) (y : Draw σ) :
    Prop where
  keeps : y.source.Keeps y.stream
  asked : y.asked = x.asked ++ new
  length : new = [] ∨ new = [x.source.sizing.readLength x.stream.length] ∧
    x.source.used + x.source.sizing.blockSize ≤ x.source.capacity
  sizing : y.source.sizing = x.source.sizing
  current : x.Current → y.Current
  ahead : ∀ n, x.ahead read (new.length + n) = new ++ y.ahead read n

theorem issues_client (h : x.source.Keeps x.stream) {a : Source.Action} (ha : a.isClients = true) :
    Issues read x [] { x with toFlow := x.act a } := by
  have hstream := x.stream_act_of_client ha
  obtain ⟨hended, hreserved⟩ := x.source.act_of_client ha
  have hsource : (x.act a).source = x.source.act a := rfl
  refine ⟨Flow.keeps_act h a, (List.append_nil _).symm, Or.inl rfl, x.source.sizing_act a, ?_, ?_⟩
  · intro hx span hs
    exact hx span (hreserved.symm.trans hs)
  · intro n
    simp only [Draw.ahead, hsource, x.source.sizing_act a, hended, hreserved, hstream,
      List.length_nil, Nat.zero_add, List.nil_append]

theorem issues_reserve (h : x.source.Keeps x.stream) (hreserved : x.source.reserved = none)
    {span : Span} {s : Source} (hs : x.source.reserve? = some (span, s)) :
    Issues read x [span.length]
      { x with toFlow := x.act .reserve, asked := x.asked ++ [span.length] } := by
  have hact : (x.act .reserve).source = s := by simp [Flow.act, Source.act, hs]
  obtain ⟨hended, hroom, rfl, rfl⟩ := Source.reserve?_eq_some hs
  have hlength := writeSpan_length h
  refine ⟨Flow.keeps_act h .reserve, rfl, Or.inr ⟨?_, hroom⟩, x.source.sizing_act .reserve, ?_, ?_⟩
  · rw [hlength]
  · intro _ span hspan
    rw [hact] at hspan
    cases hspan
    exact List.getLast?_concat
  · intro n
    rw [List.length_singleton, Nat.add_comm]
    simp only [Draw.ahead, hreserved, hended, hact, Bool.false_eq_true, if_false,
      Sizing.readLengths, hlength]
    rfl

theorem issues_again (h : x.source.Keeps x.stream) {span : Span}
    (hreserved : x.source.reserved = some span) {i : σ}
    (hi : read x.input span.length = (.interrupted, i)) :
    Issues read x [span.length] { x with input := i, asked := x.asked ++ [span.length] } := by
  have hlength := reserved_length h hreserved
  refine ⟨h, rfl, Or.inr ⟨by rw [hlength], (h.reserved span hreserved).2.1⟩, rfl, ?_, ?_⟩
  · intro _ other hother
    cases hreserved.symm.trans hother
    exact List.getLast?_concat
  · intro n
    rw [List.length_singleton, Nat.add_comm]
    simp only [Draw.ahead, hreserved, hi, Reading.gain?, Option.elim_some, Nat.add_zero,
      Sizing.readLengths, ← hlength]
    rfl

theorem issues_receive (h : x.source.Keeps x.stream) {span : Span}
    (hreserved : x.source.reserved = some span) {r : Reading} {i : σ}
    (hi : read x.input span.length = (r, i)) (hr : r ≠ .interrupted) (hp : r ≠ .pending) :
    Issues read x [] { x with toFlow := x.act (.receive r), input := i } := by
  have hsource : (x.act (.receive r)).source = x.source.receive r := rfl
  have hstream : (x.act (.receive r)).stream = x.stream ++ x.source.intake r := rfl
  have hdone : (x.source.receive r).reserved = none := by
    cases r with
    | bytes data =>
      simp only [Source.receive, hreserved]
      split <;> rfl
    | failed cause => simp [Source.receive, hreserved, Source.finish]
    | crashed => simp [Source.receive, hreserved, Source.finish]
    | interrupted => exact absurd rfl hr
    | pending => exact absurd rfl hp
  refine ⟨Flow.keeps_act h (.receive r), (List.append_nil _).symm, Or.inl rfl,
    x.source.sizing_act (.receive r), ?_, ?_⟩
  · intro _ other hother
    rw [hsource, hdone] at hother
    cases hother
  · intro n
    simp only [Draw.ahead, hreserved, hi, hsource, hdone, hstream, List.length_nil, Nat.zero_add,
      List.nil_append]
    cases r with
    | bytes data =>
      simp only [Reading.gain?, Source.receive, Source.intake, hreserved]
      by_cases hover : data.size = 0 ∨ span.length < data.size
      · simp only [if_pos hover, Option.elim_none, Source.finish, if_true]
      · have hlt : ¬span.length < data.size := fun hlt => hover (Or.inr hlt)
        obtain ⟨_, _, hended⟩ := h.reserved span hreserved
        simp only [if_neg hover, if_neg hlt, Option.elim_some, Source.append, hended,
          Bool.false_eq_true, if_false, List.length_append, Array.length_toList]
        rfl
    | failed cause => simp [Reading.gain?, Source.receive, hreserved, Source.finish]
    | crashed => simp [Reading.gain?, Source.receive, hreserved, Source.finish]
    | interrupted => exact absurd rfl hr
    | pending => exact absurd rfl hp

theorem issues_produce (h : x.source.Keeps x.stream) :
    ∃ new, Issues read x new ((x.produce? read).getD x) := by
  have hstay : Issues read x [] x :=
    ⟨h, (List.append_nil _).symm, Or.inl rfl, rfl, fun hx => hx, by simp⟩
  unfold produce?
  split
  · rename_i hreserved
    split
    · exact ⟨[], hstay⟩
    · rename_i hs
      exact ⟨_, issues_reserve h hreserved hs⟩
  · rename_i span hreserved
    split
    · exact ⟨[], hstay⟩
    · rename_i hi
      exact ⟨_, issues_again h hreserved hi⟩
    · rename_i hp hr hi
      exact ⟨[], issues_receive h hreserved hi hr hp⟩

variable (read) in
theorem issues_move (h : x.source.Keeps x.stream) (m : Move) :
    ∃ new, Issues read x new (x.move read m) := by
  cases m with
  | produce => exact issues_produce h
  | attach => exact ⟨[], issues_client h rfl⟩
  | detach id => exact ⟨[], issues_client h rfl⟩
  | release id => exact ⟨[], issues_client h rfl⟩
  | fetch id => exact ⟨[], issues_client h rfl⟩

/-- What holds of a source of this sizing at any time of its life with an input. -/
structure Steady (read : σ → Nat → Reading × σ) (z : Sizing) (i : σ) (x : Draw σ) : Prop where
  keeps : x.source.Keeps x.stream
  sizing : x.source.sizing = z.clamped
  current : x.Current
  ahead : ∀ n, z.clamped.readLengths read (x.asked.length + n) i 0 = x.asked ++ x.ahead read n

theorem steady_start (z : Sizing) (i : σ) : Steady read z i (start z i) where
  keeps := Source.keeps_start z
  sizing := rfl
  current := by
    intro span hs
    cases hs
  ahead := by
    intro n
    rw [start, List.length_nil, Nat.zero_add]
    rfl

theorem Steady.move {z : Sizing} {i : σ} (h : Steady read z i x) (m : Move) :
    Steady read z i (x.move read m) := by
  obtain ⟨new, hnew⟩ := issues_move read h.keeps m
  refine ⟨hnew.keeps, hnew.sizing.trans h.sizing, hnew.current h.current, fun n => ?_⟩
  rw [hnew.asked, List.length_append, Nat.add_assoc, h.ahead, hnew.ahead, List.append_assoc]

variable (read) in
theorem steady_run (z : Sizing) (i : σ) (moves : List Move) :
    Steady read z i (run read z i moves) :=
  List.foldlRecOn moves (Draw.move read) (steady_start z i) fun _ h m _ => h.move m

theorem Steady.asked_eq {z : Sizing} {i : σ} (h : Steady read z i x) :
    x.asked = z.clamped.readLengths read x.asked.length i 0 := by
  have hahead : x.ahead read 0 = [] := by
    unfold Draw.ahead
    split
    · split <;> rfl
    · dsimp only
      cases Reading.gain? _ _ <;> rfl
  have hnow := h.ahead 0
  rw [hahead, List.append_nil, Nat.add_zero] at hnow
  exact hnow.symm

/-- In every run, whatever the clients do: the lengths of the reads issued so far are the first of
those that the input determines, so of two runs with one input the reads of one are the first reads
of the other. A read is issued only where a block has room, and it is as long as a block, or as the
cells up to the end of the ring from where the next byte goes. A read that is interrupted is issued
again with its length. -/
theorem reads_of_input (z : Sizing) (read : σ → Nat → Reading × σ) (i : σ) (moves : List Move) :
    let x := run read z i moves
    x.asked = z.clamped.readLengths read x.asked.length i 0 ∧
    (∀ others, x.asked <+: (run read z i others).asked ∨ (run read z i others).asked <+: x.asked) ∧
    (∀ m, (x.move read m).asked = x.asked ∨
      ∃ length, (x.move read m).asked = x.asked ++ [length] ∧
        length = min z.clamped.blockSize
          (z.clamped.capacity - x.stream.length % z.clamped.capacity) ∧
        1 ≤ length ∧ length ≤ z.clamped.blockSize ∧
        x.source.used + z.clamped.blockSize ≤ z.clamped.capacity) ∧
    (∀ span, x.source.reserved = some span → x.asked.getLast? = some span.length ∧
      ∀ j, read x.input span.length = (.interrupted, j) →
        (x.move read .produce).asked = x.asked ++ [span.length]) := by
  intro x
  have h : Steady read z i x := steady_run read z i moves
  have hasked := h.asked_eq
  refine ⟨hasked, ?_, ?_, ?_⟩
  · intro others
    have hothers := (steady_run read z i others).asked_eq
    rw [hasked, hothers]
    rcases Nat.le_total x.asked.length (run read z i others).asked.length with hle | hle
    · left
      rw [← Nat.add_sub_cancel' hle]
      exact z.clamped.readLengths_prefix read _ _ i 0
    · right
      rw [← Nat.add_sub_cancel' hle]
      exact z.clamped.readLengths_prefix read _ _ i 0
  · intro m
    obtain ⟨new, hnew⟩ := issues_move read h.keeps m
    rcases hnew.length with hnone | ⟨hone, hroom⟩
    · left
      rw [hnew.asked, hnone, List.append_nil]
    · right
      have hblock := z.clamped_blockSize
      rw [Source.capacity, h.sizing] at hroom
      have hcell := Nat.mod_lt x.stream.length (show 0 < z.clamped.capacity by omega)
      rw [h.sizing] at hone
      refine ⟨z.clamped.readLength x.stream.length, by rw [hnew.asked, hone], rfl, ?_,
        Nat.min_le_left _ _, hroom⟩
      simp only [Sizing.readLength]
      omega
  · intro span hspan
    refine ⟨h.current span hspan, fun j hj => ?_⟩
    simp [Draw.move, produce?, hspan, hj]

end Draw
end MediaRelay
