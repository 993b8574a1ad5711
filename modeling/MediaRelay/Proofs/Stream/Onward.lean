import MediaRelay.Proofs.Stream.Gathering

/-! # Somebody can always go on

Clients may make any calls, stop in the midst of one, and leave. As long as one of them has not left
and has not been told of the end either, there is a way on: such a client takes a turn that brings
it nearer to the end, or else all of them wait, and then their cursors stand at the high end and the
producer has room for a block.
-/
namespace MediaRelay

namespace Client
variable {c d : Client} {s t : Source} {call : Call}

/-- What is left to do for a client, whatever its last call was: one that need not bring anything
takes it round by a longer way. -/
def load (length : Nat) (c : Client) : Nat :=
  c.toDo length +
    match c.stage with
    | .waiting call => if call.insists then 0 else 3
    | _ => 0

end Client

theorem Client.Step.gone {c d : Client} {s t : Source} (h : Step c s d t) (hd : d.stage = .gone) :
    t = s.detach c.reader.cursor := by
  cases h with
  | serve call => rcases c.take_stage call with he | he <;> simp [he] at hd
  | ask => cases hd
  | meetEnd call => rcases c.take_stage call with he | he <;> simp [he] at hd
  | hand call data => rcases (c.handed data).take_stage call with he | he <;> simp [he] at hd
  | giveBack => cases hd
  | leave => rfl

theorem Source.get?_detach (s : Source) (id : CursorId) :
    (s.detach id).cursors.get? id = none := by
  unfold detach
  split
  · rw [evict_cursors, Roster.get?_erase, if_pos rfl]
  · rename_i hnone
    exact Option.not_isSome_iff_eq_none.mp hnone

namespace Sharing
variable {x : Sharing}

/-- The cursors of a source are those of the clients that have not left. -/
structure Attended (x : Sharing) : Prop extends Sound x where
  supplied : x.source.sizing.Ample → x.source.Supplied
  manned : ∀ id, (x.source.cursors.get? id).isSome →
    ∃ c, x.clients.get? id = some c ∧ c.stage ≠ .gone

theorem manned_turn (h : x.Attended) (id : CursorId) (t : Client.Turn) :
    ∀ j, ((x.move (.turn id t)).source.cursors.get? j).isSome →
      ∃ c, (x.move (.turn id t)).clients.get? j = some c ∧ c.stage ≠ .gone := by
  cases hc : x.clients.get? id with
  | none =>
    simp only [move, hc]
    exact h.manned
  | some c =>
    cases hs : c.step? x.source t with
    | none =>
      simp only [move, hc, hs]
      exact h.manned
    | some p =>
      obtain ⟨d, s⟩ := p
      simp only [move, hc, hs]
      have hstep := Client.step?_inv hs
      obtain ⟨rfl, _⟩ := h.owns id c hc
      intro j hj
      rw [Roster.get?_modify]
      by_cases hid : j = c.reader.cursor
      · subst hid
        refine ⟨d, by rw [if_pos rfl, hc]; rfl, ?_⟩
        intro hgone
        rw [hstep.gone hgone, Source.get?_detach] at hj
        cases hj
      · rw [hstep.touches.others j hid] at hj
        rw [if_neg hid]
        exact h.manned j hj

theorem manned_join (h : x.Attended) :
    ∀ j, ((x.move .join).source.cursors.get? j).isSome →
      ∃ c, (x.move .join).clients.get? j = some c ∧ c.stage ≠ .gone := by
  simp only [move, Source.attach?]
  split
  · exact h.manned
  · rename_i id s hs
    split at hs
    · cases hs
      intro j hj
      rw [Roster.get?_put] at hj ⊢
      by_cases hid : j = x.source.nextCursor
      · rw [if_pos hid]
        exact ⟨_, rfl, by simp⟩
      · rw [if_neg hid] at hj ⊢
        exact h.manned j hj
    · cases hs

theorem Attended.move (h : x.Attended) (m : Move) : (x.move m).Attended where
  toSound := h.toSound.move m
  supplied := by
    rcases x.move_toFlow m with he | ⟨a, he⟩
    · rw [he]
      exact h.supplied
    · rw [he]
      intro hz
      have hsizing : x.source.sizing.Ample := x.source.sizing_act a ▸ hz
      exact Flow.supplied_act h.keeps hsizing (h.supplied hsizing) a
  manned := by
    cases m with
    | reserve =>
      have hsame : (x.source.act .reserve).cursors = x.source.cursors := by
        simp only [Source.act, Source.reserve?]
        split <;> rfl
      intro j hj
      change ((x.source.act .reserve).cursors.get? j).isSome at hj
      rw [hsame] at hj
      exact h.manned j hj
    | receive r =>
      intro j hj
      change ((x.source.receive r).cursors.get? j).isSome at hj
      rw [Source.receive_cursors] at hj
      exact h.manned j hj
    | join => exact manned_join h
    | turn id t => exact manned_turn h id t

/-- What a client does is nothing to the producer but for the room that it makes. -/
theorem same_of_client (x : Sharing) {m : Move} (hm : m = .join ∨ ∃ id t, m = .turn id t) :
    (x.move m).source.ended = x.source.ended ∧ (x.move m).source.reserved = x.source.reserved ∧
      (x.move m).source.sizing = x.source.sizing ∧ (x.move m).stream = x.stream := by
  rcases x.move_of_client hm with he | ⟨a, ha, he⟩
  · rw [he]
    exact ⟨rfl, rfl, rfl, rfl⟩
  · obtain ⟨hended, hreserved⟩ := x.source.act_of_client ha
    rw [he]
    exact ⟨hended, hreserved, x.source.sizing_act a, x.toFlow.stream_act_of_client ha⟩

end Sharing
end MediaRelay
