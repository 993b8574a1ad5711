import MediaRelay.Proofs.Stream.Draw
import MediaRelay.Proofs.Stream.Fidelity
import MediaRelay.Proofs.Stream.Trimming

/-! # Reading a stream together

Some clients join a source, and then each of them reads it to its end by one kind of call, while the
producer takes in its input. In between, the order of turns decides much: how far the producer is
ahead at a commit, and with it whether anything is evicted then. In the end it decides nothing.
Every turn leaves less to do, and as long as anything is left somebody can take a turn; when nobody
can, all clients have everything, and the last commit has evicted all whole blocks, unless the ring
has never been three quarters full.
-/
namespace MediaRelay

namespace Client

def met (c : Client) : Bool := c.replies.any Reply.isEnd

/-- The next turn of a client that makes one kind of call until it meets the end. -/
def next? (c : Client) (call : Call) : Option Turn :=
  match c.stage with
  | .idle => if c.met then none else some (.call call)
  | .gone => none
  | _ => some .proceed

end Client

/-- Clients of one source, and its producer with an input. -/
structure Gathering extends Sharing where
  input : Input
  /-- The kind of call that each client makes. -/
  habit : CursorId → Call
  /-- How many clients are still to join. Nobody reads before all have joined. -/
  absent : Nat

namespace Gathering

inductive Turn where
  | producer
  | join
  | client (id : CursorId)

def start (z : Sizing) (i : Input) (n : Nat) (habit : CursorId → Call) : Gathering where
  toSharing := .start z
  input := i
  habit := habit
  absent := n

/-- The producer with its input, clients left aside. -/
def draw (x : Gathering) : Draw Input := { toFlow := x.toFlow, input := x.input }

def fed (x : Gathering) (d : Draw Input) : Gathering :=
  { x with toFlow := d.toFlow, input := d.input }

def produce? (x : Gathering) : Option Gathering := (x.draw.produce? Input.read).map x.fed

def join? (x : Gathering) : Option Gathering :=
  match x.absent with
  | 0 => none
  | n + 1 => x.source.attach?.map fun _ => { x with toSharing := x.move .join, absent := n }

def read? (x : Gathering) (id : CursorId) : Option Gathering :=
  match x.absent, x.clients.get? id with
  | 0, some c =>
    match c.next? (x.habit id) with
    | none => none
    | some t => (c.step? x.source t).map fun _ => { x with toSharing := x.move (.turn id t) }
  | _, _ => none

def turn? (x : Gathering) : Turn → Option Gathering
  | .producer => x.produce?
  | .join => x.join?
  | .client id => x.read? id

def play? (x : Gathering) : List Turn → Option Gathering
  | [] => some x
  | t :: rest => (x.turn? t).bind fun y => play? y rest

end Gathering

namespace Client

theorem size_portion (c : Client) (call : Call) :
    (c.portion call).size = call.amount c.reader.pending := by
  have hle := call.amount_le c.reader.pending
  simp only [portion, ByteArray.size_extract, Reader.pending] at hle ⊢
  omega

theorem length_received_take (c : Client) (call : Call) :
    (c.take call).received.length = c.received.length + call.amount c.reader.pending := by
  rw [received_take, List.length_append, Array.length_toList, ← size_portion]
  rfl

theorem met_take (c : Client) (call : Call) :
    (c.take call).met = (c.met || (call.insists && call.amount c.reader.pending = 0)) := by
  simp [met, take, Reply.isEnd, size_portion]

/-- The ways in which a client that keeps making one kind of call moves on. -/
inductive Advance (call : Call) (c : Client) (s : Source) : Client → Source → Prop where
  | serve : c.stage = .idle → c.met = false → c.reader.pending ≠ 0 →
      Advance call c s (c.take call) s
  | ask : c.stage = .idle → c.met = false → c.reader.pending = 0 →
      Advance call c s { c with stage := .waiting call } (s.release c.reader.cursor)
  | meetEnd (asked : Call) : c.stage = .waiting asked → s.fetch c.reader.cursor = (.done, s) →
      Advance call c s (c.take asked) s
  | hand (asked : Call) (data : ByteArray) (t : Source) : c.stage = .waiting asked →
      s.fetch c.reader.cursor = (.span data, t) →
      Advance call c s ((c.handed data).take asked) t
  | giveBack : c.stage = .leaving →
      Advance call c s { c with stage := .idle } (s.release c.reader.cursor)

theorem advance_of_step? {c d : Client} {s u : Source} {call : Call} (hi : call.insists = true)
    {t : Turn} (ht : c.next? call = some t) (h : c.step? s t = some (d, u)) :
    Advance call c s d u := by
  unfold next? at ht
  cases hs : c.stage with
  | idle =>
    simp only [hs, Option.ite_none_left_eq_some, Option.some.injEq, Bool.not_eq_true] at ht
    obtain ⟨hmet, rfl⟩ := ht
    simp only [step?, hs, begin, call.fills_of_insists hi, true_and, Option.some.injEq] at h
    split at h
    · rename_i hp
      cases h
      exact .ask hs hmet hp
    · rename_i hp
      cases h
      exact .serve hs hmet hp
  | waiting asked =>
    simp only [hs, Option.some.injEq] at ht
    subst ht
    simp only [step?, proceed?, hs] at h
    split at h
    · cases h
    · rename_i v hv
      cases h
      have heq := Source.fetch_done hv
      subst heq
      exact .meetEnd asked hs hv
    · rename_i data v hv
      cases h
      exact .hand asked data u hs hv
  | leaving =>
    simp only [hs, Option.some.injEq] at ht
    subst ht
    simp only [step?, proceed?, hs] at h
    cases h
    exact .giveBack hs
  | gone => simp [hs] at ht

theorem Advance.step {call : Call} {c d : Client} {s t : Source} (h : Advance call c s d t) :
    Step c s d t := by
  cases h with
  | serve hs _ hp => exact .serve call hs fun _ => hp
  | ask hs _ hp => exact .ask call hs hp
  | meetEnd asked hs hf => exact .meetEnd asked hs hf
  | hand asked data t hs hf => exact .hand asked data t hs hf
  | giveBack hs => exact .giveBack hs

theorem Advance.reserved {call : Call} {c d : Client} {s t : Source} (h : Advance call c s d t) :
    t.reserved = s.reserved := by
  cases h with
  | serve => rfl
  | meetEnd => rfl
  | ask => simp [Source.release, Source.commit]
  | giveBack => simp [Source.release, Source.commit]
  | hand asked data t _ hf =>
    rcases s.fetch_cases c.reader.cursor with ⟨_, he⟩ | ⟨_, _, _, he⟩ | ⟨_, _, _, he⟩ <;>
      rw [hf, Prod.mk.injEq] at he <;> rw [he.2]

/-- What is left to do for a client until it has met the end of a stream of the given length: the
bytes to come weigh more than the steps of a call. -/
def toDo (length : Nat) (c : Client) : Nat :=
  5 * (length - c.received.length) +
    match c.stage, c.met with
    | .idle, false => 3
    | .waiting _, _ => 2
    | .leaving, false => 4
    | .leaving, true => 1
    | _, _ => 0

theorem toDo_le_missing (length : Nat) (c : Client) :
    c.toDo length ≤ 5 * (length - c.received.length) + 4 := by
  unfold toDo
  split <;> omega

theorem toDo_le (length : Nat) (c : Client) : c.toDo length ≤ 5 * length + 4 := by
  have hle := c.toDo_le_missing length
  omega

theorem toDo_lt_of_received {length : Nat} {c d : Client}
    (hlt : c.received.length < d.received.length) (hle : d.received.length ≤ length)
    (hc : c.met = false) (hs : c.stage = .idle ∨ ∃ call, c.stage = .waiting call) :
    d.toDo length < c.toDo length := by
  have hd := d.toDo_le_missing length
  have hc : 5 * (length - c.received.length) + 2 ≤ c.toDo length := by
    unfold toDo
    rcases hs with hs | ⟨call, hs⟩ <;> simp [hs, hc]
  omega

end Client

/-! ## One client -/

namespace Client

/-- A client that keeps to one kind of call: it waits for nothing else, makes no call once it has
met the end, and then has nothing that is yet to be committed. -/
structure Diligent (c : Client) (call : Call) (s : Source) : Prop where
  stays : c.stage ≠ .gone
  waits : ∀ asked, c.stage = .waiting asked → asked = call ∧ c.met = false
  committed : c.met = true → ∀ cur, s.cursors.get? c.reader.cursor = some cur → cur.available = 0

variable {c d : Client} {call : Call} {s t : Source} {stream : List UInt8}

theorem Diligent.others (h : c.Diligent call s)
    (hcursor : t.cursors.get? c.reader.cursor = s.cursors.get? c.reader.cursor) :
    c.Diligent call t :=
  ⟨h.stays, h.waits, fun hm cur hcur => h.committed hm cur (hcursor ▸ hcur)⟩

theorem take_stays (c : Client) (call : Call) :
    (c.take call).stage ≠ .gone ∧ ∀ asked, (c.take call).stage ≠ .waiting asked := by
  rcases c.take_stage call with h | h <;> rw [h] <;> simp

theorem met_take_of_pending (hi : call.insists = true) (hm : c.met = false)
    (hp : c.reader.pending ≠ 0) : (c.take call).met = false := by
  have ha : call.amount c.reader.pending ≠ 0 := fun hz => hp (Call.amount_of_insists hi hz)
  simp [met_take, hm, ha]

theorem Advance.diligent (h : Advance call c s d t) (hi : call.insists = true)
    (hd : c.Diligent call s) (hf : c.Faithful s stream) (hk : s.Keeps stream) :
    d.Diligent call t := by
  cases h with
  | serve _ hm hp =>
    have hmet := met_take_of_pending hi hm hp
    refine ⟨(c.take_stays call).1, fun asked hw => absurd hw ((c.take_stays call).2 asked), ?_⟩
    rw [hmet]
    exact fun h => absurd h Bool.false_ne_true
  | ask _ hm _ =>
    refine ⟨by simp, ?_, ?_⟩
    · rintro asked ⟨⟩
      exact ⟨rfl, hm⟩
    · intro hmet
      exact absurd (hmet.symm.trans hm) (by decide)
  | meetEnd asked hs _ =>
    refine ⟨(c.take_stays asked).1, fun other hw => absurd hw ((c.take_stays asked).2 other), ?_⟩
    exact fun _ => (hf.waits asked hs).2
  | hand asked data t hs he =>
    obtain ⟨rfl, hm⟩ := hd.waits asked hs
    have hmet := met_take_of_pending (c := c.handed data) hi hm (hf.handed hk hs he).2
    refine ⟨((c.handed data).take_stays asked).1,
      fun other hw => absurd hw (((c.handed data).take_stays asked).2 other), ?_⟩
    rw [hmet]
    exact fun h => absurd h Bool.false_ne_true
  | giveBack =>
    refine ⟨by simp, by simp, ?_⟩
    intro _ cur hcur
    change (s.release c.reader.cursor).cursors.get? c.reader.cursor = some cur at hcur
    rw [Source.get?_release, if_pos rfl] at hcur
    obtain ⟨_, _, rfl⟩ := Option.map_eq_some_iff.mp hcur
    rfl

theorem Advance.toDo_lt (h : Advance call c s d t) (hi : call.insists = true)
    (hd : c.Diligent call s) (hf : c.Faithful s stream) (hk : s.Keeps stream) {length : Nat}
    (hlen : d.received.length ≤ length) : d.toDo length < c.toDo length := by
  cases h with
  | serve hs hm hp =>
    refine toDo_lt_of_received ?_ hlen hm (Or.inl hs)
    have ha : call.amount c.reader.pending ≠ 0 := fun hz => hp (Call.amount_of_insists hi hz)
    rw [length_received_take]
    omega
  | ask hs hm _ =>
    simp only [toDo, hs, hm]
    exact Nat.add_lt_add_left (by decide) _
  | meetEnd asked hs _ =>
    obtain ⟨rfl, hm⟩ := hd.waits asked hs
    have hz : asked.amount c.reader.pending = 0 := by
      have hle := asked.amount_le c.reader.pending
      have hp := (hf.waits asked hs).1
      omega
    have hmet : (c.take asked).met = true := by simp [met_take, hi, hz]
    simp only [toDo, length_received_take, hz, Nat.add_zero, hs, hmet]
    rcases c.take_stage asked with h | h <;> simp only [h] <;> omega
  | hand asked data t hs he =>
    obtain ⟨rfl, hm⟩ := hd.waits asked hs
    refine toDo_lt_of_received ?_ hlen hm (Or.inr ⟨asked, hs⟩)
    have hp := (hf.handed hk hs he).2
    have ha : asked.amount (c.handed data).reader.pending ≠ 0 :=
      fun hz => hp (Call.amount_of_insists hi hz)
    have hsame : (c.handed data).received = c.received := rfl
    rw [length_received_take, hsame]
    omega
  | giveBack hs =>
    have hmet : ({ c with stage := .idle } : Client).met = c.met := rfl
    have hsame : ({ c with stage := .idle } : Client).received = c.received := rfl
    simp only [toDo, hs, hmet, hsame]
    cases c.met <;> simp

end Client

end MediaRelay
