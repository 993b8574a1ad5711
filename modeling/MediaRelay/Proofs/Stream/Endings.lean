import MediaRelay.Proofs.Stream.Onward
import MediaRelay.Proofs.Stream.Rest

/-! # How an input ends

What a source and its clients go through hangs on the bytes that each read brings and on nothing
else of the input. It does not matter whether the input ends by bringing nothing, by a failure or by
breaking down: the source ends alike. Nor does it matter how often a read has to be tried again: a
retry happens at the input alone. So two inputs that yield the same runs of bytes cannot be told
apart by anybody who keeps to the same schedule, and neither is read on after its first end.
-/
namespace MediaRelay
variable {σ τ : Type}

/-- How many reads of the input are under way. -/
def Source.underWay (s : Source) : Nat := if s.reserved = none then 0 else 1

namespace Source
variable {s t : Source}

theorem underWay_of_none (h : s.reserved = none) : s.underWay = 0 := if_pos h

theorem underWay_of_some {span : Span} (h : s.reserved = some span) : s.underWay = 1 := by
  rw [underWay, h, if_neg (Option.some_ne_none span)]

theorem underWay_congr (h : t.reserved = s.reserved) : t.underWay = s.underWay := by
  rw [underWay, underWay, h]

end Source

/-- A source with its clients, whose producer reads an input of any kind. -/
structure Broadcast (σ : Type) extends Draw σ where
  clients : Roster CursorId Client := .empty

namespace Broadcast

inductive Move where
  | produce
  | join
  | turn (id : CursorId) (t : Client.Turn)
deriving DecidableEq

def start (z : Sizing) (i : σ) : Broadcast σ := { toDraw := .start z i }

def toSharing (x : Broadcast σ) : Sharing := ⟨x.toFlow, x.clients⟩

def withSharing (x : Broadcast σ) (s : Sharing) : Broadcast σ :=
  ⟨⟨s.toFlow, x.input, x.asked⟩, s.clients⟩

variable (read : σ → Nat → Reading × σ)

def move (x : Broadcast σ) : Move → Broadcast σ
  | .produce => { x with toDraw := x.toDraw.move read .produce }
  | .join => x.withSharing (x.toSharing.move .join)
  | .turn id t => x.withSharing (x.toSharing.move (.turn id t))

def run (z : Sizing) (i : σ) (moves : List Move) : Broadcast σ :=
  moves.foldl (move read) (start z i)

/-- Whether a move is no more than another try at a read that was interrupted. -/
def retries (x : Broadcast σ) : Move → Bool
  | .produce => x.interrupted read
  | _ => false

end Broadcast

namespace Sharing

/-- What a move amounts to for the source and its clients if the producer is brought these runs of
bytes, one with each read, and then the end; and the runs that are left then. -/
def order (x : Sharing) (runs : List ByteArray) : Broadcast.Move → Move × List ByteArray
  | .produce =>
    match x.source.reserved, runs with
    | none, runs => (.reserve, runs)
    | some _, [] => (.receive (.bytes ByteArray.empty), [])
    | some _, data :: rest => (.receive (.bytes data), rest)
  | .join => (.join, runs)
  | .turn id t => (.turn id t, runs)

variable {x : Sharing}

theorem order_produce_of_idle (hs : x.source.reserved = none) (runs : List ByteArray) :
    x.order runs .produce = (.reserve, runs) := by
  simp only [order, hs]

theorem order_produce_last {span : Span} (hs : x.source.reserved = some span) :
    x.order [] .produce = (.receive (.bytes ByteArray.empty), []) := by
  simp only [order, hs]

theorem order_produce_more {span : Span} (hs : x.source.reserved = some span) (data : ByteArray)
    (rest : List ByteArray) :
    x.order (data :: rest) .produce = (.receive (.bytes data), rest) := by
  simp only [order, hs]

end Sharing

namespace Broadcast
variable {read : σ → Nat → Reading × σ} {z : Sizing} {bytes : List UInt8} {reads left : Nat}
  {runs : List ByteArray} {x y : Broadcast σ}

/-- What the input still owes to the source, after all that it has brought: the runs that are left,
and with them so many reads. -/
structure Owed (read : σ → Nat → Reading × σ) (z : Sizing) (bytes : List UInt8) (reads : Nat)
    (x : Broadcast σ) (runs : List ByteArray) (left : Nat) : Prop where
  attended : x.toSharing.Attended
  sizing : x.source.sizing = z
  bytes_eq : x.stream ++ inRow runs = bytes
  rest : x.source.ended = true ∧ runs = [] ∧ left = 0 ∨
    x.source.ended = false ∧ Yields z read x.stream.length x.input runs left
  asked : x.asked.length + left = reads + x.source.underWay

/-- After a move the source and its clients are as the runs tell, and the input owes what is left of
them. -/
def Obeys (read : σ → Nat → Reading × σ) (z : Sizing) (bytes : List UInt8) (reads : Nat)
    (x : Broadcast σ) (runs : List ByteArray) (m : Move) (y : Broadcast σ) : Prop :=
  y.toSharing = x.toSharing.move (x.toSharing.order runs m).1 ∧
    ∃ k, Owed read z bytes reads y (x.toSharing.order runs m).2 k

namespace Owed

theorem keeps (h : Owed read z bytes reads x runs left) : x.source.Keeps x.stream :=
  h.attended.keeps

theorem yields (h : Owed read z bytes reads x runs left) {span : Span}
    (hs : x.source.reserved = some span) :
    Yields z read x.stream.length x.input runs left ∧
      span.length = z.readLength x.stream.length := by
  have hlength := Draw.reserved_length (x := x.toDraw) h.keeps hs
  rw [h.sizing] at hlength
  rcases h.rest with ⟨hended, _⟩ | ⟨_, hyields⟩
  · rw [(h.keeps.reserved span hs).2.2] at hended
    cases hended
  · exact ⟨hyields, hlength⟩

theorem stream_prefix (h : Owed read z bytes reads x runs left) : x.stream <+: bytes :=
  ⟨inRow runs, h.bytes_eq⟩

/-- A producer that waits has no room, for an input that keeps it waiting yields nothing. -/
theorem waiting (h : Owed read z bytes reads x runs left) (hp : x.toDraw.produce? read = none) :
    x.source.reserved = none ∧ x.source.reserve? = none := by
  cases hs : x.source.reserved with
  | none => exact ⟨rfl, Draw.reserve?_of_produce? hp hs⟩
  | some span =>
    obtain ⟨hyields, hlength⟩ := h.yields hs
    have hpending := Draw.pending_of_produce? hp hs
    rw [hlength] at hpending
    exact absurd hpending hyields.not_pending

theorem client (h : Owed read z bytes reads x runs left) {m : Sharing.Move}
    (hm : m = .join ∨ ∃ id t, m = .turn id t) :
    Owed read z bytes reads (x.withSharing (x.toSharing.move m)) runs left := by
  obtain ⟨hended, hreserved, hsizing, hstream⟩ := x.toSharing.same_of_client hm
  refine ⟨h.attended.move m, hsizing.trans h.sizing, ?_, ?_, ?_⟩
  · change (x.toSharing.move m).stream ++ inRow runs = bytes
    rw [hstream]
    exact h.bytes_eq
  · change (x.toSharing.move m).source.ended = true ∧ _ ∨
      (x.toSharing.move m).source.ended = false ∧
        Yields z read (x.toSharing.move m).stream.length x.input runs left
    rw [hended, hstream]
    exact h.rest
  · change x.asked.length + left = reads + (x.toSharing.move m).source.underWay
    rw [Source.underWay_congr hreserved]
    exact h.asked

theorem obeys_reserve (h : Owed read z bytes reads x runs left)
    (hs : x.source.reserved = none) {span : Span} {s : Source}
    (hv : x.source.reserve? = some (span, s)) :
    Obeys read z bytes reads x runs .produce
      ⟨⟨x.act .reserve, x.input, x.asked ++ [span.length]⟩, x.clients⟩ := by
  have hact : x.source.act .reserve = s := by simp [Source.act, hv]
  obtain ⟨_, _, rfl, rfl⟩ := Source.reserve?_eq_some hv
  rw [Obeys, Sharing.order_produce_of_idle hs]
  refine ⟨rfl, left, h.attended.move .reserve, ?_, h.bytes_eq, ?_, ?_⟩
  · exact (x.source.sizing_act .reserve).trans h.sizing
  · change (x.source.act .reserve).ended = true ∧ _ ∨ (x.source.act .reserve).ended = false ∧ _
    rw [hact]
    exact h.rest
  · have hasked := h.asked
    rw [Source.underWay_of_none hs] at hasked
    change (x.asked ++ [x.source.writeSpan.length]).length + left =
      reads + (x.source.act .reserve).underWay
    rw [hact, Source.underWay_of_some rfl, List.length_append, List.length_singleton]
    omega

/-- Nothing at all, a failure and a breakdown all come to the same as an empty read. -/
theorem obeys_last (h : Owed read z bytes reads x runs left) {span : Span}
    (hs : x.source.reserved = some span) {r : Reading} {i : σ}
    (hi : read x.input span.length = (r, i)) (hlast : r.isLast span.length = true) :
    Obeys read z bytes reads x runs .produce
      ⟨⟨⟨x.source.finish, x.stream⟩, i, x.asked⟩, x.clients⟩ := by
  obtain ⟨hyields, hlength⟩ := h.yields hs
  rw [hlength] at hi hlast
  obtain ⟨rfl, rfl⟩ := hyields.of_last hi hlast
  have hend : x.toSharing.move (.receive (.bytes ByteArray.empty)) =
      ⟨⟨x.source.finish, x.stream⟩, x.clients⟩ := by
    have hempty : Reading.isLast span.length (.bytes ByteArray.empty) = true := rfl
    obtain ⟨hreceive, hintake⟩ := Source.receive_last hs hempty
    simp only [Sharing.move, Flow.act, Source.act, toSharing, hreceive, hintake, List.append_nil]
  have hattended := h.attended.move (.receive (.bytes ByteArray.empty))
  rw [hend] at hattended
  rw [Obeys, Sharing.order_produce_last hs]
  refine ⟨hend.symm, 0, hattended, h.sizing, h.bytes_eq, Or.inl ⟨rfl, rfl, rfl⟩, ?_⟩
  have hasked := h.asked
  rw [Source.underWay_of_some hs] at hasked
  exact Nat.succ.inj hasked

theorem obeys_more (h : Owed read z bytes reads x runs left) {span : Span}
    (hs : x.source.reserved = some span) {data : ByteArray} {i : σ}
    (hi : read x.input span.length = (.bytes data, i)) (hpos : 0 < data.size)
    (hle : data.size ≤ span.length) :
    Obeys read z bytes reads x runs .produce
      ⟨⟨⟨x.source.append span data, x.stream ++ data.data.toList⟩, i, x.asked⟩, x.clients⟩ := by
  have hmore : x.toSharing.move (.receive (.bytes data)) =
      ⟨⟨x.source.append span data, x.stream ++ data.data.toList⟩, x.clients⟩ := by
    obtain ⟨hreceive, hintake⟩ := Source.receive_more hs hpos hle
    simp only [Sharing.move, Flow.act, Source.act, toSharing, hreceive, hintake]
  have hattended := h.attended.move (.receive (.bytes data))
  rw [hmore] at hattended
  obtain ⟨hyields, hlength⟩ := h.yields hs
  rw [hlength] at hi hle
  obtain ⟨rest, k, rfl, rfl, hrest⟩ := hyields.of_bytes hi hpos hle
  rw [Obeys, Sharing.order_produce_more hs]
  refine ⟨hmore.symm, k, hattended, h.sizing, ?_, Or.inr ⟨?_, ?_⟩, ?_⟩
  · have hbytes := h.bytes_eq
    rw [inRow, List.flatMap_cons, ← List.append_assoc] at hbytes
    exact hbytes
  · exact (h.keeps.reserved span hs).2.2
  · change Yields z read (x.stream ++ data.data.toList).length i rest k
    rw [List.length_append, Array.length_toList]
    exact hrest
  · have hasked := h.asked
    rw [Source.underWay_of_some hs] at hasked
    exact Nat.succ.inj hasked

/-- Every move but a retry is what the runs tell. -/
theorem obeys (h : Owed read z bytes reads x runs left) {m : Move}
    (hm : x.retries read m = false) :
    Obeys read z bytes reads x runs m (x.move read m) := by
  cases m with
  | join => exact ⟨rfl, left, h.client (Or.inl rfl)⟩
  | turn id t => exact ⟨rfl, left, h.client (Or.inr ⟨id, t, rfl⟩)⟩
  | produce =>
    rcases x.toDraw.move_produce read with ⟨hp, he⟩ | ha
    · obtain ⟨hs, hv⟩ := h.waiting hp
      have hstay : x.move read .produce = x := by rw [move, he]
      rw [hstay, Obeys, Sharing.order_produce_of_idle hs]
      exact ⟨by simp [Sharing.move, Flow.act, Source.act, toSharing, hv], left, h⟩
    · generalize hy : x.toDraw.move read .produce = y at ha
      have hmove : x.move read .produce = ⟨y, x.clients⟩ := by rw [move, hy]
      rw [hmove]
      cases ha with
      | reserve span s hs hv => exact h.obeys_reserve hs hv
      | again span i hs hi =>
        simp [retries, Draw.interrupted, Draw.gain?, hs, hi, Reading.gain?] at hm
      | last span r i hs hi hlast => exact h.obeys_last hs hi hlast
      | more span data i hs hi hpos hle => exact h.obeys_more hs hi hpos hle

theorem retry (h : Owed read z bytes reads x runs left) {m : Move}
    (hm : x.retries read m = true) :
    (x.move read m).toSharing = x.toSharing ∧
      ∃ k < left, Owed read z bytes reads (x.move read m) runs k := by
  cases m with
  | join => cases hm
  | turn id t => cases hm
  | produce =>
    obtain ⟨span, i, hs, hi, he⟩ := Draw.again_of_interrupted hm
    obtain ⟨hyields, hlength⟩ := h.yields hs
    rw [hlength] at hi
    obtain ⟨k, rfl, hrest⟩ := hyields.of_interrupted hi
    have hmove : x.move read .produce =
        ⟨⟨x.toFlow, i, x.asked ++ [span.length]⟩, x.clients⟩ := by rw [Broadcast.move, he]
    rw [hmove]
    refine ⟨rfl, k, Nat.lt_succ_self k, h.attended, h.sizing, h.bytes_eq,
      Or.inr ⟨(h.keeps.reserved span hs).2.2, hrest⟩, ?_⟩
    have hasked := h.asked
    change (x.asked ++ [span.length]).length + k = reads + x.source.underWay
    rw [List.length_append, List.length_singleton]
    omega

theorem move (h : Owed read z bytes reads x runs left) (m : Move) :
    ∃ rest k, Owed read z bytes reads (x.move read m) rest k := by
  cases hm : x.retries read m with
  | true =>
    obtain ⟨_, k, _, hk⟩ := h.retry hm
    exact ⟨runs, k, hk⟩
  | false =>
    obtain ⟨_, k, hk⟩ := h.obeys hm
    exact ⟨_, k, hk⟩

theorem moves (h : Owed read z bytes reads x runs left) (ms : List Move) :
    ∃ rest k, Owed read z bytes reads (ms.foldl (Broadcast.move read) x) rest k := by
  induction ms generalizing x runs left with
  | nil => exact ⟨runs, left, h⟩
  | cons m ms ih =>
    obtain ⟨rest, k, hk⟩ := h.move m
    exact ih hk

end Owed

/-! ## The way to the end -/

/-- Everybody who has not left has received these bytes, and has been told of the end. -/
def Completed (x : Broadcast σ) (bytes : List UInt8) : Prop :=
  ∀ id c, x.clients.get? id = some c → c.stage ≠ .gone → c.met = true ∧ c.received = bytes

/-- What is left to do until all clients have been told of the end, and for the producer. -/
def work (x : Broadcast σ) (length reads : Nat) : Nat :=
  total (Client.load length) x.clients.values + 2 * (reads - x.asked.length) + x.source.underWay

namespace Owed

end Owed

end Broadcast
end MediaRelay
