import MediaRelay.Proofs.Stream.Flow
import MediaRelay.Stream.Reader

/-! # Clients at one source

Any number of clients use one source at the same time, each through a reader of its own, and each
with one call after another. A call takes up to three steps, and between any two of them the source
is free for the producer and for the other clients: it commits the last span, then, perhaps after a
wait, it is handed the next one and takes its bytes, and then it gives back a span that is used up.
A call that nobody interferes with is the operation of the reader.
-/
namespace MediaRelay

inductive Call where
  | fill
  | consume (n : Nat)
  | read (n : Nat)
  | chunk
deriving DecidableEq

namespace Call

/-- Whether the call asks for a span where nothing is pending. -/
def fills : Call → Bool
  | consume _ => false
  | _ => true

def amount (pending : Nat) : Call → Nat
  | fill => 0
  | consume n => min n pending
  | read n => min n pending
  | chunk => pending

theorem amount_le (call : Call) (pending : Nat) : call.amount pending ≤ pending := by
  cases call with
  | fill => exact Nat.zero_le _
  | consume n => exact Nat.min_le_right _ _
  | read n => exact Nat.min_le_right _ _
  | chunk => exact Nat.le_refl _

/-- Whether the call gives the span back, with what was pending before and is pending after. -/
def leaves (before after : Nat) : Call → Bool
  | fill => false
  | chunk => before ≠ 0
  | _ => after = 0

/-- Whether the call brings bytes unless the stream has come to its end. -/
def insists : Call → Bool
  | read n => n ≠ 0
  | chunk => true
  | _ => false

theorem fills_of_insists (call : Call) (h : call.insists = true) : call.fills = true := by
  cases call <;> first | rfl | cases h

theorem amount_of_insists {call : Call} (h : call.insists = true) {pending : Nat}
    (hz : call.amount pending = 0) : pending = 0 := by
  cases call with
  | fill => cases h
  | consume n => cases h
  | read n =>
    have hn : n ≠ 0 := of_decide_eq_true h
    simp only [amount] at hz
    omega
  | chunk => exact hz

end Call

structure Reply where
  call : Call
  data : ByteArray

/-- No bytes for a call that insists on some: the end of the stream. -/
def Reply.isEnd (a : Reply) : Bool := a.call.insists && a.data.size = 0

inductive Stage where
  | idle
  /-- The last span is committed, and the next one is due. -/
  | waiting (call : Call)
  /-- The span is used up, and yet to be given back. -/
  | leaving
  | gone

structure Client where
  reader : Reader
  stage : Stage := .idle
  replies : List Reply := []

namespace Client

def received (c : Client) : List UInt8 := c.replies.flatMap fun a => a.data.data.toList

def portion (c : Client) (call : Call) : ByteArray :=
  c.reader.span.extract c.reader.taken (c.reader.taken + call.amount c.reader.pending)

def take (c : Client) (call : Call) : Client :=
  let n := call.amount c.reader.pending
  let r := { c.reader with taken := c.reader.taken + n }
  { reader := r
    stage := if call.leaves c.reader.pending r.pending then .leaving else .idle
    replies := c.replies ++ [⟨call, c.portion call⟩] }

def handed (c : Client) (span : ByteArray) : Client :=
  { c with reader := { c.reader with span := span, taken := 0 }, stage := .idle }

def begin (c : Client) (call : Call) (s : Source) : Client × Source :=
  if call.fills ∧ c.reader.pending = 0 then
    ({ c with stage := .waiting call }, s.release c.reader.cursor)
  else (c.take call, s)

/-- A further step of the call under way, unless it has to wait. -/
def proceed? (c : Client) (s : Source) : Option (Client × Source) :=
  match c.stage with
  | .waiting call =>
    match s.fetch c.reader.cursor with
    | (.wait, _) => none
    | (.done, s) => some (c.take call, s)
    | (.span data, s) => some ((c.handed data).take call, s)
  | .leaving => some ({ c with stage := .idle }, s.release c.reader.cursor)
  | _ => none

inductive Turn where
  | call (call : Call)
  | proceed
  | leave
deriving DecidableEq

def step? (c : Client) (s : Source) : Turn → Option (Client × Source)
  | .call call =>
    match c.stage with
    | .idle => some (c.begin call s)
    | _ => none
  | .proceed => c.proceed? s
  | .leave =>
    match c.stage with
    | .idle => some ({ c with stage := .gone }, s.detach c.reader.cursor)
    | _ => none

def finish (c : Client) (s : Source) : Client × Source :=
  match c.stage with
  | .leaving => (c.proceed? s).getD (c, s)
  | _ => (c, s)

/-- All steps of a call in a row, unless it has to wait. -/
def alone? (c : Client) (call : Call) (s : Source) : Option (Client × Source) :=
  let (c, s) := c.begin call s
  match c.stage with
  | .waiting _ => (c.proceed? s).map fun (c, s) => c.finish s
  | _ => some (c.finish s)

end Client

/-- A source in use, with its clients and those who have left. -/
structure Sharing extends Flow where
  clients : Roster CursorId Client := .empty

namespace Sharing

inductive Move where
  | reserve
  | receive (r : Reading)
  | join
  | turn (id : CursorId) (t : Client.Turn)

def start (z : Sizing) : Sharing := { toFlow := .start z }

def move (x : Sharing) : Move → Sharing
  | .reserve => { x with toFlow := x.act .reserve }
  | .receive r => { x with toFlow := x.act (.receive r) }
  | .join =>
    match x.source.attach? with
    | none => x
    | some (id, s) =>
      { x with source := s, clients := x.clients.put id { reader := { cursor := id } } }
  | .turn id t =>
    match x.clients.get? id with
    | none => x
    | some c =>
      match c.step? x.source t with
      | none => x
      | some (c, s) => { x with source := s, clients := x.clients.modify id fun _ => c }

def run (z : Sizing) (moves : List Move) : Sharing := moves.foldl move (start z)

end Sharing

/-! ## Calls and the operations of a reader -/

namespace Client
variable (c : Client) (s : Source)

theorem take_stage (call : Call) :
    (c.take call).stage = .idle ∨ (c.take call).stage = .leaving := by
  unfold take
  dsimp only
  split
  · exact Or.inr rfl
  · exact Or.inl rfl

theorem alone?_of_fills {call : Call} (hf : call.fills = true) :
    c.alone? call s =
      (c.reader.fill? s).map fun p =>
        (({ c with reader := p.1 } : Client).take call).finish p.2 := by
  by_cases hp : c.reader.pending = 0
  · simp only [alone?, begin, proceed?, Reader.fill?, Source.next, hf, hp, and_self, if_true]
    cases (s.release c.reader.cursor).fetch c.reader.cursor with
    | mk fetch t => cases fetch <;> rfl
  · simp only [alone?, begin, Reader.fill?, hp, and_false, if_false, Option.map_some]
    rcases c.take_stage call with h | h <;> simp only [h]

def after (c : Client) (r : Reader) (call : Call) (data : ByteArray) : Client where
  reader := r
  replies := c.replies ++ [⟨call, data⟩]

/-- Taking off pending bytes and giving back a span that is used up is what `consume` does. -/
theorem finish_take_of_amount (call : Call) {n : Nat}
    (ha : call.amount c.reader.pending = min n c.reader.pending)
    (hl : ∀ before after, call.leaves before after = decide (after = 0)) :
    (c.take call).finish s =
      (c.after (c.reader.consume n s).1 call
        (c.reader.span.extract c.reader.taken (c.reader.taken + min n c.reader.pending)),
        (c.reader.consume n s).2) := by
  simp only [take, portion, Reader.consume, ha, hl, decide_eq_true_eq]
  split <;> rfl

theorem alone?_fill :
    c.alone? .fill s =
      (c.reader.fill? s).map fun (r, t) => (c.after r .fill ByteArray.empty, t) := by
  rw [alone?_of_fills c s rfl]
  cases c.reader.fill? s with
  | none => rfl
  | some p => simp [take, portion, finish, after, Call.amount, Call.leaves]

theorem alone?_consume (n : Nat) :
    (c.alone? (.consume n) s).map (fun (d, t) => (d.reader, t)) = some (c.reader.consume n s) := by
  have hb : c.begin (.consume n) s = (c.take (.consume n), s) := by
    simp [begin, Call.fills]
  have ha : c.alone? (.consume n) s = some ((c.take (.consume n)).finish s) := by
    simp only [alone?, hb]
    rcases c.take_stage (.consume n) with h | h <;> simp only [h]
  rw [ha, c.finish_take_of_amount s (.consume n) rfl fun _ _ => rfl]
  rfl

theorem alone?_read (n : Nat) :
    c.alone? (.read n) s =
      (c.reader.read? n s).map fun (data, r, t) => (c.after r (.read n) data, t) := by
  rw [alone?_of_fills c s rfl]
  simp only [Reader.read?]
  cases c.reader.fill? s with
  | none => rfl
  | some p =>
    obtain ⟨r, t⟩ := p
    have hmin : min (min n r.pending) r.pending = min n r.pending := by omega
    have h := ({ c with reader := r } : Client).finish_take_of_amount t (.read n) hmin.symm
      fun _ _ => rfl
    simp only [Option.map_some, h, hmin]
    rfl

theorem alone?_chunk :
    c.alone? .chunk s =
      (c.reader.chunk? s).map fun (data?, r, t) =>
        (c.after r .chunk (data?.getD ByteArray.empty), t) := by
  rw [alone?_of_fills c s rfl]
  simp only [Reader.chunk?]
  cases c.reader.fill? s with
  | none => rfl
  | some p =>
    obtain ⟨r, t⟩ := p
    by_cases hp : r.pending = 0
    · simp [take, portion, finish, after, Call.amount, Call.leaves, hp]
    · have hend : r.taken + r.pending = r.span.size := by
        simp only [Reader.pending] at hp ⊢
        omega
      simp only [Option.map_some, take, portion, Call.amount, Call.leaves, hend, ne_eq, hp,
        not_false_eq_true, decide_true, if_true]
      rfl

end Client

/-! ## The steps of clients and the actions on their source -/

theorem Source.fetch_done {s t : Source} {id : CursorId} (h : s.fetch id = (.done, t)) : t = s := by
  rcases s.fetch_cases id with ⟨_, he⟩ | ⟨_, _, _, he⟩ | ⟨_, _, _, he⟩ <;>
    simp only [h, Prod.mk.injEq] at he
  · exact he.2
  · exact he.2
  · cases he.1

namespace Client

/-- The ways in which a client moves on. -/
inductive Step (c : Client) (s : Source) : Client → Source → Prop where
  | serve (call : Call) : c.stage = .idle → (call.fills = true → c.reader.pending ≠ 0) →
      Step c s (c.take call) s
  | ask (call : Call) : c.stage = .idle → c.reader.pending = 0 →
      Step c s { c with stage := .waiting call } (s.release c.reader.cursor)
  | meetEnd (call : Call) : c.stage = .waiting call → s.fetch c.reader.cursor = (.done, s) →
      Step c s (c.take call) s
  | hand (call : Call) (data : ByteArray) (t : Source) : c.stage = .waiting call →
      s.fetch c.reader.cursor = (.span data, t) → Step c s ((c.handed data).take call) t
  | giveBack : c.stage = .leaving →
      Step c s { c with stage := .idle } (s.release c.reader.cursor)
  | leave : c.stage = .idle → Step c s { c with stage := .gone } (s.detach c.reader.cursor)

theorem step?_inv {c d : Client} {s t : Source} {turn : Turn}
    (h : c.step? s turn = some (d, t)) : Step c s d t := by
  cases turn with
  | call call =>
    cases hs : c.stage with
    | idle =>
      simp only [step?, hs, begin] at h
      split at h
      · rename_i hp
        cases h
        exact .ask call hs hp.2
      · rename_i hp
        cases h
        exact .serve call hs fun hf hz => hp ⟨hf, hz⟩
    | _ => simp [step?, hs] at h
  | proceed =>
    cases hs : c.stage with
    | waiting call =>
      simp only [step?, proceed?, hs] at h
      split at h
      · cases h
      · rename_i u hu
        cases h
        have heq := Source.fetch_done hu
        subst heq
        exact .meetEnd call hs hu
      · rename_i data u hu
        cases h
        exact .hand call data t hs hu
    | leaving =>
      simp only [step?, proceed?, hs] at h
      cases h
      exact .giveBack hs
    | _ => simp [step?, proceed?, hs] at h
  | leave =>
    cases hs : c.stage with
    | idle =>
      simp only [step?, hs] at h
      cases h
      exact .leave hs
    | _ => simp [step?, hs] at h

namespace Step
variable {c d : Client} {s t : Source}

theorem cursor (h : Step c s d t) : d.reader.cursor = c.reader.cursor := by
  cases h <;> rfl

theorem source (h : Step c s d t) :
    t = s ∨ ∃ a ∈ [Source.Action.release c.reader.cursor, .fetch c.reader.cursor,
      .detach c.reader.cursor], t = s.act a := by
  cases h with
  | serve => exact Or.inl rfl
  | meetEnd => exact Or.inl rfl
  | ask => exact Or.inr ⟨.release c.reader.cursor, by simp, rfl⟩
  | hand call data t _ hf =>
    exact Or.inr ⟨.fetch c.reader.cursor, by simp, by simp only [Source.act, hf]⟩
  | giveBack => exact Or.inr ⟨.release c.reader.cursor, by simp, rfl⟩
  | leave => exact Or.inr ⟨.detach c.reader.cursor, by simp, rfl⟩

end Step
end Client

namespace Sharing

theorem move_of_client (x : Sharing) {m : Move} (hm : m = .join ∨ ∃ id t, m = .turn id t) :
    (x.move m).toFlow = x.toFlow ∨
      ∃ a : Source.Action, a.isClients = true ∧ (x.move m).toFlow = x.toFlow.act a := by
  rcases hm with rfl | ⟨id, t, rfl⟩
  · cases ha : x.source.attach? with
    | none => exact Or.inl (by simp [move, ha])
    | some p => exact Or.inr ⟨.attach, rfl, by simp [move, ha, Flow.act, Source.act]⟩
  · cases hc : x.clients.get? id with
    | none => exact Or.inl (by simp [move, hc])
    | some c =>
      cases hs : c.step? x.source t with
      | none => exact Or.inl (by simp [move, hc, hs])
      | some p =>
        simp only [move, hc, hs]
        rcases (Client.step?_inv hs).source with he | ⟨a, ha, he⟩
        · exact Or.inl (by rw [he])
        · right
          refine ⟨a, ?_⟩
          simp only [List.mem_cons, List.not_mem_nil, or_false] at ha
          rcases ha with rfl | rfl | rfl <;> exact ⟨rfl, by rw [he]; rfl⟩

/-- Whatever the clients do is a run of actions on their source. -/
theorem move_toFlow (x : Sharing) (m : Move) :
    (x.move m).toFlow = x.toFlow ∨ ∃ a, (x.move m).toFlow = x.toFlow.act a := by
  cases m with
  | reserve => exact Or.inr ⟨.reserve, rfl⟩
  | receive r => exact Or.inr ⟨.receive r, rfl⟩
  | join =>
    rcases x.move_of_client (Or.inl rfl) with he | ⟨a, _, he⟩
    · exact Or.inl he
    · exact Or.inr ⟨a, he⟩
  | turn id t =>
    rcases x.move_of_client (Or.inr ⟨id, t, rfl⟩) with he | ⟨a, _, he⟩
    · exact Or.inl he
    · exact Or.inr ⟨a, he⟩

theorem run_toFlow (z : Sizing) (moves : List Move) :
    ∃ actions, (run z moves).toFlow = Flow.run z actions := by
  refine List.foldlRecOn (motive := fun x => ∃ actions, Sharing.toFlow x = Flow.run z actions)
    moves move ⟨[], rfl⟩ ?_
  rintro x ⟨actions, hx⟩ m _
  rcases x.move_toFlow m with he | ⟨a, he⟩
  · exact ⟨actions, he.trans hx⟩
  · refine ⟨actions ++ [a], ?_⟩
    rw [he, hx, Flow.run, Flow.run, List.foldl_append]
    rfl

end Sharing
end MediaRelay
