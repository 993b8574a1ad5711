import MediaRelay.Stream.Feed

/-! # Flows

What can happen to a source, one action at a time, in any order and with any number of cursors, and
a source together with all bytes that it has taken in on the way. The producer takes two actions for
each read of its input, with the source free for others in between. So does a listener who asks for
the next span: it commits the last one, and then fetches, at once or after it has waited.
-/
namespace MediaRelay

namespace Source

/-- What the producer or a listener does while it has the source for itself. -/
inductive Action where
  | reserve
  | receive (r : Reading)
  | attach
  | detach (id : CursorId)
  /-- The end of a span, and the beginning of a call for the next one. -/
  | release (id : CursorId)
  | fetch (id : CursorId)

def Action.isClients : Action → Bool
  | .reserve => false
  | .receive _ => false
  | _ => true

/-- Where an action cannot go through, nothing happens. -/
def act (s : Source) : Action → Source
  | .reserve => (s.reserve?.map Prod.snd).getD s
  | .receive r => s.receive r
  | .attach => (s.attach?.map Prod.snd).getD s
  | .detach id => s.detach id
  | .release id => s.release id
  | .fetch id => (s.fetch id).2

/-- The bytes that come in with what a read has come to. -/
def intake (s : Source) : Reading → List UInt8
  | .bytes data =>
    match s.reserved with
    | none => []
    | some span => if span.length < data.size then [] else data.data.toList
  | _ => []

/-- What a read has come to is ignored, ends the stream, or is appended to it. -/
theorem receive_cases (s : Source) (r : Reading) :
    (s.receive r = s ∧ s.intake r = []) ∨ (s.receive r = s.finish ∧ s.intake r = []) ∨
      ∃ span data, s.reserved = some span ∧ 0 < data.size ∧ data.size ≤ span.length ∧
        s.receive r = s.append span data ∧ s.intake r = data.data.toList := by
  cases hs : s.reserved with
  | none =>
    left
    cases r <;> simp [receive, intake, hs]
  | some span =>
    cases r with
    | interrupted => simp [receive, intake]
    | pending => simp [receive, intake]
    | failed cause => simp [receive, intake, hs]
    | crashed => simp [receive, intake, hs]
    | bytes data =>
      by_cases hz : data.size = 0
      · have hnil : data.data = #[] := Array.eq_empty_of_size_eq_zero hz
        simp [receive, intake, hs, hz, hnil]
      · by_cases hover : span.length < data.size
        · simp [receive, intake, hs, hover]
        · right; right
          refine ⟨span, data, rfl, Nat.pos_of_ne_zero hz, Nat.le_of_not_lt hover, ?_, ?_⟩
          · simp [receive, hs, hz, hover]
          · simp [intake, hs, hover]

theorem reserve_of_room {s : Source} (hopen : s.ended = false) (hn : s.reserved = none)
    (hroom : s.used + s.sizing.blockSize ≤ s.capacity) :
    s.reserve? = some (s.writeSpan, { s with reserved := some s.writeSpan }) := by
  have hok : s.ended = false ∧ s.reserved = none ∧ s.hasRoom := ⟨hopen, hn, decide_eq_true hroom⟩
  simp only [reserve?, if_pos hok]

theorem reserve?_eq_some {s t : Source} {span : Span} (h : s.reserve? = some (span, t)) :
    s.ended = false ∧ s.used + s.sizing.blockSize ≤ s.capacity ∧ span = s.writeSpan ∧
      t = { s with reserved := some s.writeSpan } := by
  unfold reserve? at h
  split at h
  · rename_i hok
    cases h
    exact ⟨hok.1, of_decide_eq_true hok.2.2, rfl, rfl⟩
  · cases h

@[simp] theorem receive_cursors (s : Source) (r : Reading) : (s.receive r).cursors = s.cursors := by
  rcases s.receive_cases r with ⟨hr, _⟩ | ⟨hr, _⟩ | ⟨_, _, _, _, _, hr, _⟩ <;> rw [hr] <;> rfl

@[simp] theorem receive_nextCursor (s : Source) (r : Reading) :
    (s.receive r).nextCursor = s.nextCursor := by
  rcases s.receive_cases r with ⟨hr, _⟩ | ⟨hr, _⟩ | ⟨_, _, _, _, _, hr, _⟩ <;> rw [hr] <;> rfl

/-- A fetch hands out a span, or finds nothing past the cursor and leaves the source as it is. -/
theorem fetch_cases (s : Source) (id : CursorId) :
    (s.cursors.get? id = none ∧ s.fetch id = (.done, s)) ∨
      (∃ c, s.cursors.get? id = some c ∧ s.high ≤ c.offset ∧
        s.fetch id = (if s.ended then .done else .wait, s)) ∨
      ∃ c, s.cursors.get? id = some c ∧ c.offset < s.high ∧
        s.fetch id = (.span (s.ring.read (s.readSpan c.offset)),
          { s with cursors :=
              s.cursors.modify id fun d => ⟨d.offset, (s.readSpan c.offset).length⟩ }) := by
  cases hc : s.cursors.get? id with
  | none =>
    left
    exact ⟨rfl, by simp [fetch, hc]⟩
  | some c =>
    right
    by_cases hlt : c.offset < s.high
    · right
      exact ⟨c, rfl, hlt, by simp [fetch, hc, hlt]⟩
    · left
      refine ⟨c, rfl, Nat.le_of_not_lt hlt, ?_⟩
      cases he : s.ended <;> simp [fetch, hc, hlt, he]

end Source

/-- A source, and all that its input has brought it so far. -/
structure Flow where
  source : Source
  stream : List UInt8 := []

namespace Flow

def start (z : Sizing) : Flow := { source := .start z }

def act (f : Flow) (a : Source.Action) : Flow where
  source := f.source.act a
  stream :=
    match a with
    | .receive r => f.stream ++ f.source.intake r
    | _ => f.stream

theorem stream_act_of_client (f : Flow) {a : Source.Action} (ha : a.isClients = true) :
    (f.act a).stream = f.stream := by
  cases a with
  | receive r => cases ha
  | _ => rfl

def run (z : Sizing) (actions : List Source.Action) : Flow := actions.foldl act (start z)

theorem run_append (z : Sizing) (actions more : List Source.Action) :
    run z (actions ++ more) = more.foldl act (run z actions) := by
  rw [run, run, List.foldl_append]

theorem source_foldl (f : Flow) (actions : List Source.Action) :
    (actions.foldl act f).source = actions.foldl Source.act f.source := by
  induction actions generalizing f with
  | nil => rfl
  | cons a rest ih => exact ih (f.act a)

theorem run_induction {motive : Flow → Prop} (z : Sizing) (actions : List Source.Action)
    (first : motive (start z)) (next : ∀ f a, motive f → motive (f.act a)) :
    motive (run z actions) :=
  List.foldlRecOn actions act first fun f h a _ => next f a h

end Flow

/-- Every step of a producer at its input is an action on its source, or a read tried once more. -/
theorem Feed.step?_source {f g : Feed} (h : f.step? = some g) :
    ∃ a, g.source = f.source.act a := by
  unfold Feed.step? at h
  cases hr : f.source.reserved with
  | none =>
    simp only [hr] at h
    cases hv : f.source.reserve? with
    | none => simp [hv] at h
    | some reserved =>
      obtain ⟨span, s⟩ := reserved
      simp only [hv, Option.some.injEq] at h
      subst h
      exact ⟨.reserve, by simp [Source.act, hv]⟩
  | some span =>
    simp only [hr] at h
    cases hi : f.input.read span.length with
    | mk reading input =>
      simp only [hi] at h
      cases reading with
      | pending => simp at h
      | interrupted =>
        cases h
        exact ⟨.receive .interrupted, by simp [Source.act, Source.receive, hr]⟩
      | bytes data =>
        cases h
        exact ⟨.receive (.bytes data), rfl⟩
      | failed cause =>
        cases h
        exact ⟨.receive (.failed cause), rfl⟩
      | crashed =>
        cases h
        exact ⟨.receive .crashed, rfl⟩

theorem Feed.settle_source (f : Feed) :
    ∃ actions : List Source.Action, f.settle.source = actions.foldl Source.act f.source := by
  unfold Feed.settle
  induction f.budget generalizing f with
  | zero => exact ⟨[], rfl⟩
  | succ n ih =>
    unfold Feed.steps
    cases hs : f.step? with
    | none => exact ⟨[], rfl⟩
    | some g =>
      obtain ⟨a, ha⟩ := Feed.step?_source hs
      obtain ⟨actions, he⟩ := ih g
      exact ⟨a :: actions, by simp only [he, ha, List.foldl_cons]⟩

end MediaRelay
