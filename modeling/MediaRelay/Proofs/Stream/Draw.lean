import MediaRelay.Proofs.Stream.Residence

/-! # Producers and their inputs

A producer issues one read after another, each as soon as the ring has room for a block, and takes
in what the read has come to. What an input brings in this way depends on nothing else: a read is as
long as the offset tells that the stream has come to. So an input yields a row of runs of bytes, one
with each read that goes well, and then it ends, whoever reads the stream meanwhile.
-/
namespace MediaRelay
variable {σ : Type}

/-- How many bytes a read has brought, if the producer goes on to a further one. -/
def Reading.gain? (length : Nat) : Reading → Option Nat
  | .bytes data => if data.size = 0 ∨ length < data.size then none else some data.size
  | .interrupted => some 0
  | _ => none

/-- The length of the read that is issued once so many bytes have come in. -/
def Sizing.readLength (z : Sizing) (offset : Nat) : Nat :=
  min z.blockSize (z.capacity - offset % z.capacity)

def Reading.isLast (length : Nat) : Reading → Bool
  | .bytes data => data.size = 0 || length < data.size
  | .failed _ => true
  | .crashed => true
  | _ => false

theorem Reading.gain?_of_isLast {length : Nat} {r : Reading} (h : r.isLast length = true) :
    r.gain? length = none := by
  cases r with
  | bytes data =>
    have hbad : data.size = 0 ∨ length < data.size := by simpa [isLast] using h
    simp only [gain?, if_pos hbad]
  | interrupted => cases h
  | failed cause => rfl
  | crashed => rfl
  | pending => cases h

theorem Reading.gain?_bytes {length : Nat} {data : ByteArray} (hpos : 0 < data.size)
    (hle : data.size ≤ length) : (Reading.bytes data).gain? length = some data.size := by
  have hgood : ¬(data.size = 0 ∨ length < data.size) := by omega
  simp only [gain?, if_neg hgood]

theorem Reading.eq_interrupted_of_gain? {length : Nat} {r : Reading} (h : r.gain? length = some 0) :
    r = .interrupted := by
  cases r with
  | bytes data =>
    simp only [gain?] at h
    split at h
    · cases h
    · rename_i hgood
      exact absurd (Or.inl (Option.some.inj h)) hgood
  | interrupted => rfl
  | failed cause => cases h
  | crashed => cases h
  | pending => cases h

namespace Source

theorem receive_last {s : Source} {span : Span} (hs : s.reserved = some span) {r : Reading}
    (hr : r.isLast span.length = true) : s.receive r = s.finish ∧ s.intake r = [] := by
  cases r with
  | bytes data =>
    have hbad : data.size = 0 ∨ span.length < data.size := by simpa [Reading.isLast] using hr
    refine ⟨by simp only [receive, hs, if_pos hbad], ?_⟩
    rcases hbad with hz | hover
    · have hnil : data.data = #[] := Array.eq_empty_of_size_eq_zero hz
      simp [intake, hs, hnil]
    · simp [intake, hs, hover]
  | failed cause => exact ⟨by simp [receive, hs], rfl⟩
  | crashed => exact ⟨by simp [receive, hs], rfl⟩
  | interrupted => cases hr
  | pending => cases hr

theorem receive_more {s : Source} {span : Span} (hs : s.reserved = some span) {data : ByteArray}
    (hpos : 0 < data.size) (hle : data.size ≤ span.length) :
    s.receive (.bytes data) = s.append span data ∧ s.intake (.bytes data) = data.data.toList := by
  have hgood : ¬(data.size = 0 ∨ span.length < data.size) := by omega
  refine ⟨by simp only [receive, hs, if_neg hgood], ?_⟩
  simp only [intake, hs, if_neg (Nat.not_lt_of_le hle)]

end Source

/-- A source whose producer reads an input of any kind, and the lengths of the reads issued so far,
in their order. -/
structure Draw (σ : Type) extends Flow where
  input : σ
  asked : List Nat := []

namespace Draw

inductive Move where
  | produce
  | attach
  | detach (id : CursorId)
  | release (id : CursorId)
  | fetch (id : CursorId)

def start (z : Sizing) (i : σ) : Draw σ := { toFlow := .start z, input := i }

variable (read : σ → Nat → Reading × σ)

/-- The next step of the producer, unless it has to wait: to issue a read, or to take in what the
read under way has come to. -/
def produce? (x : Draw σ) : Option (Draw σ) :=
  match x.source.reserved with
  | none =>
    match x.source.reserve? with
    | none => none
    | some (span, _) => some { x with toFlow := x.act .reserve, asked := x.asked ++ [span.length] }
  | some span =>
    match read x.input span.length with
    | (.pending, _) => none
    | (.interrupted, i) => some { x with input := i, asked := x.asked ++ [span.length] }
    | (r, i) => some { x with toFlow := x.act (.receive r), input := i }

def move (x : Draw σ) : Move → Draw σ
  | .produce => (x.produce? read).getD x
  | .attach => { x with toFlow := x.act .attach }
  | .detach id => { x with toFlow := x.act (.detach id) }
  | .release id => { x with toFlow := x.act (.release id) }
  | .fetch id => { x with toFlow := x.act (.fetch id) }

def run (z : Sizing) (i : σ) (moves : List Move) : Draw σ := moves.foldl (move read) (start z i)

def toFeed (x : Draw Input) : Feed := ⟨x.source, x.input, x.asked.reverse⟩

/-- With an input that is given as a list of items, the producer is that of a feed. -/
theorem toFeed_produce? (x : Draw Input) :
    (x.produce? Input.read).map toFeed = x.toFeed.step? := by
  unfold produce? Feed.step?
  cases hr : x.source.reserved with
  | none =>
    cases hv : x.source.reserve? with
    | none => simp [toFeed, hr, hv]
    | some p => simp [toFeed, hr, hv, Flow.act, Source.act]
  | some span =>
    simp only [toFeed, hr]
    cases hi : x.input.read span.length with
    | mk r i => cases r <;> simp [toFeed, Flow.act, Source.act]

variable {read} {x y : Draw σ}

theorem writeSpan_length (h : x.source.Keeps x.stream) :
    x.source.writeSpan.length = x.source.sizing.readLength x.stream.length := by
  rw [← h.high_eq]
  rfl

theorem reserved_length (h : x.source.Keeps x.stream) {span : Span}
    (hs : x.source.reserved = some span) :
    span.length = x.source.sizing.readLength x.stream.length := by
  rw [(h.reserved span hs).1, writeSpan_length h]

variable (read) in
/-- The ways in which a producer goes on. -/
inductive Advance (x : Draw σ) : Draw σ → Prop where
  | reserve (span : Span) (s : Source) : x.source.reserved = none →
      x.source.reserve? = some (span, s) →
      Advance x { x with toFlow := x.act .reserve, asked := x.asked ++ [span.length] }
  | again (span : Span) (i : σ) : x.source.reserved = some span →
      read x.input span.length = (.interrupted, i) →
      Advance x { x with input := i, asked := x.asked ++ [span.length] }
  | last (span : Span) (r : Reading) (i : σ) : x.source.reserved = some span →
      read x.input span.length = (r, i) → r.isLast span.length = true →
      Advance x { x with source := x.source.finish, input := i }
  | more (span : Span) (data : ByteArray) (i : σ) : x.source.reserved = some span →
      read x.input span.length = (.bytes data, i) → 0 < data.size → data.size ≤ span.length →
      Advance x { x with
        source := x.source.append span data
        stream := x.stream ++ data.data.toList
        input := i }

theorem advance_of_produce? (h : x.produce? read = some y) : Advance read x y := by
  unfold produce? at h
  cases hs : x.source.reserved with
  | none =>
    simp only [hs] at h
    cases hv : x.source.reserve? with
    | none => simp [hv] at h
    | some p =>
      obtain ⟨span, s⟩ := p
      simp only [hv, Option.some.injEq] at h
      exact h ▸ .reserve span s hs hv
  | some span =>
    simp only [hs] at h
    cases hi : read x.input span.length with
    | mk r i =>
      simp only [hi] at h
      have hlast : r.isLast span.length = true →
          x.act (.receive r) = ⟨x.source.finish, x.stream⟩ := by
        intro hr
        obtain ⟨hreceive, hintake⟩ := Source.receive_last hs hr
        simp only [Flow.act, Source.act, hreceive, hintake, List.append_nil]
      cases r with
      | pending => cases h
      | interrupted =>
        cases h
        exact .again span i hs hi
      | failed cause =>
        simp only [hlast rfl, Option.some.injEq] at h
        exact h ▸ .last span _ i hs hi rfl
      | crashed =>
        simp only [hlast rfl, Option.some.injEq] at h
        exact h ▸ .last span _ i hs hi rfl
      | bytes data =>
        cases hbad : (Reading.bytes data).isLast span.length with
        | true =>
          simp only [hlast hbad, Option.some.injEq] at h
          exact h ▸ .last span _ i hs hi hbad
        | false =>
          simp only [Reading.isLast, Bool.or_eq_false_iff, decide_eq_false_iff_not] at hbad
          have hpos : 0 < data.size := Nat.pos_of_ne_zero hbad.1
          have hle : data.size ≤ span.length := Nat.le_of_not_lt hbad.2
          obtain ⟨hreceive, hintake⟩ := Source.receive_more hs hpos hle
          simp only [Flow.act, Source.act, hreceive, hintake, Option.some.injEq] at h
          exact h ▸ .more span data i hs hi hpos hle

variable (read) in
theorem move_produce (x : Draw σ) :
    x.produce? read = none ∧ x.move read .produce = x ∨ Advance read x (x.move read .produce) := by
  cases hp : x.produce? read with
  | none => exact Or.inl ⟨rfl, by simp [move, hp]⟩
  | some y =>
    right
    have hy : x.move read .produce = y := by simp [move, hp]
    exact hy ▸ advance_of_produce? hp

theorem Advance.toFlow_eq (h : Advance read x y) :
    y.toFlow = x.act .reserve ∨ ∃ r, y.toFlow = x.act (.receive r) := by
  cases h with
  | reserve => exact Or.inl rfl
  | again =>
    right
    refine ⟨.interrupted, ?_⟩
    simp [Flow.act, Source.act, Source.receive, Source.intake]
  | last span r i hs hi hlast =>
    right
    obtain ⟨hreceive, hintake⟩ := Source.receive_last hs hlast
    exact ⟨r, by simp only [Flow.act, Source.act, hreceive, hintake, List.append_nil]⟩
  | more span data i hs hi hpos hle =>
    right
    obtain ⟨hreceive, hintake⟩ := Source.receive_more hs hpos hle
    exact ⟨.bytes data, by simp only [Flow.act, Source.act, hreceive, hintake]⟩

theorem Advance.same (h : Advance read x y) :
    y.source.cursors = x.source.cursors ∧ y.source.floor = x.source.floor := by
  cases h with
  | reserve =>
    simp only [Flow.act, Source.act, Source.reserve?]
    split <;> exact ⟨rfl, rfl⟩
  | again => exact ⟨rfl, rfl⟩
  | last => exact ⟨rfl, rfl⟩
  | more => exact ⟨rfl, rfl⟩

theorem pending_of_produce? (hp : x.produce? read = none) {span : Span}
    (hs : x.source.reserved = some span) : (read x.input span.length).1 = .pending := by
  simp only [produce?, hs] at hp
  cases hi : read x.input span.length with
  | mk r i => cases r <;> simp [hi] at hp ⊢

theorem reserve?_of_produce? (hp : x.produce? read = none) (hs : x.source.reserved = none) :
    x.source.reserve? = none := by
  cases hv : x.source.reserve? with
  | none => rfl
  | some p => simp [produce?, hs, hv] at hp

end Draw

/-- Read from an offset of the stream on, the input yields these runs of bytes, one after another
and each by one read, and then it ends; with the reads that are interrupted, so many reads. -/
inductive Yields (z : Sizing) (read : σ → Nat → Reading × σ) :
    Nat → σ → List ByteArray → Nat → Prop
  | last {n : Nat} {i : σ} : (read i (z.readLength n)).1.isLast (z.readLength n) = true →
      Yields z read n i [] 1
  | again {n reads : Nat} {i : σ} {runs : List ByteArray} :
      (read i (z.readLength n)).1 = .interrupted →
      Yields z read n (read i (z.readLength n)).2 runs reads → Yields z read n i runs (reads + 1)
  | more {n reads : Nat} {i : σ} {data : ByteArray} {runs : List ByteArray} :
      (read i (z.readLength n)).1 = .bytes data → 0 < data.size → data.size ≤ z.readLength n →
      Yields z read (n + data.size) (read i (z.readLength n)).2 runs reads →
      Yields z read n i (data :: runs) (reads + 1)

namespace Yields
variable {z : Sizing} {read : σ → Nat → Reading × σ} {n left : Nat} {i j : σ}
  {runs : List ByteArray} {r : Reading}

theorem of_last (h : Yields z read n i runs left) (hr : read i (z.readLength n) = (r, j))
    (hlast : r.isLast (z.readLength n) = true) : runs = [] ∧ left = 1 := by
  cases h with
  | last => exact ⟨rfl, rfl⟩
  | again hread =>
    rw [hr] at hread
    cases hread
    cases hlast
  | more hread hpos hle =>
    rw [hr] at hread
    cases hread
    have hgood : ¬_ = 0 ∧ ¬_ < _ := ⟨Nat.ne_of_gt hpos, Nat.not_lt_of_le hle⟩
    simp [Reading.isLast, hgood] at hlast

theorem of_interrupted (h : Yields z read n i runs left)
    (hr : read i (z.readLength n) = (.interrupted, j)) :
    ∃ k, left = k + 1 ∧ Yields z read n j runs k := by
  cases h with
  | last hlast =>
    rw [hr] at hlast
    cases hlast
  | again _ hrest =>
    rw [hr] at hrest
    exact ⟨_, rfl, hrest⟩
  | more hread =>
    rw [hr] at hread
    cases hread

theorem of_bytes (h : Yields z read n i runs left) {data : ByteArray}
    (hr : read i (z.readLength n) = (.bytes data, j)) (hpos : 0 < data.size)
    (hle : data.size ≤ z.readLength n) :
    ∃ rest k, runs = data :: rest ∧ left = k + 1 ∧ Yields z read (n + data.size) j rest k := by
  cases h with
  | last hlast =>
    rw [hr] at hlast
    simp only [Reading.isLast, Bool.or_eq_true, decide_eq_true_eq] at hlast
    omega
  | again hread =>
    rw [hr] at hread
    cases hread
  | more hread _ _ hrest =>
    rw [hr] at hread hrest
    cases hread
    exact ⟨_, _, rfl, rfl, hrest⟩

theorem not_pending (h : Yields z read n i runs left) :
    (read i (z.readLength n)).1 ≠ .pending := by
  intro hr
  cases h with
  | last hlast =>
    rw [hr] at hlast
    cases hlast
  | again hread =>
    rw [hr] at hread
    cases hread
  | more hread =>
    rw [hr] at hread
    cases hread

end Yields

def inRow (runs : List ByteArray) : List UInt8 := runs.flatMap fun data => data.data.toList

/-! ## Finite inputs -/

namespace Input
variable {z : Sizing}

theorem exists_yields_of_read {i : Input} {n : Nat}
    (hread : (i.read (z.readLength n)).1 ≠ .pending)
    (hrest : (i.read (z.readLength n)).1.isLast (z.readLength n) = false →
      ∀ m, ∃ runs reads, Yields z read m (i.read (z.readLength n)).2 runs reads) :
    ∃ runs reads, Yields z read n i runs reads := by
  cases hlast : (i.read (z.readLength n)).1.isLast (z.readLength n) with
  | true => exact ⟨[], 1, .last hlast⟩
  | false =>
    cases hr : (i.read (z.readLength n)).1 with
    | bytes data =>
      obtain ⟨runs, reads, h⟩ := hrest hlast (n + data.size)
      rw [hr] at hlast
      simp only [Reading.isLast, Bool.or_eq_false_iff, decide_eq_false_iff_not] at hlast
      exact ⟨_, _, .more hr (Nat.pos_of_ne_zero hlast.1) (Nat.le_of_not_lt hlast.2) h⟩
    | interrupted =>
      obtain ⟨runs, reads, h⟩ := hrest hlast n
      exact ⟨runs, reads + 1, .again hr h⟩
    | pending => exact absurd hr hread
    | failed cause => simp [hr, Reading.isLast] at hlast
    | crashed => simp [hr, Reading.isLast] at hlast

theorem exists_yields_of_bytes {rest : List InputItem}
    (hrest : ∀ buffer n, ∃ runs reads, Yields z read n ⟨rest, false, buffer⟩ runs reads)
    (data : ByteArray) (left taken : Nat) (hleft : data.size - taken = left) (buffer : ByteArray)
    (n : Nat) :
    ∃ runs reads, Yields z read n ⟨.bytes data taken :: rest, false, buffer⟩ runs reads := by
  induction left using Nat.strongRecOn generalizing taken buffer n with
  | ind left ih =>
    apply exists_yields_of_read
    · simp [read]
    · intro hlast m
      have hsome : ¬(data.extract taken (min (taken + z.readLength n) data.size)).size = 0 := by
        simp only [read, Reading.isLast, Bool.or_eq_false_iff, decide_eq_false_iff_not] at hlast
        exact hlast.1
      rw [ByteArray.size_extract] at hsome
      by_cases hmore : min (taken + z.readLength n) data.size < data.size
      · simp only [read, if_pos hmore, write]
        exact ih _ (by omega) _ rfl _ m
      · simp only [read, if_neg hmore, write]
        exact hrest _ m

/-- Every input that is not gated and holds no item without an end yields some runs of bytes. -/
theorem exists_yields (z : Sizing) (items : List InputItem)
    (hfinite : ∀ byte, InputItem.fill byte ∉ items) (buffer : ByteArray) (n : Nat) :
    ∃ runs reads, Yields z read n ⟨items, false, buffer⟩ runs reads := by
  induction items generalizing buffer n with
  | nil => exact ⟨[], 1, .last (by simp [read, Reading.isLast])⟩
  | cons item rest ih =>
    have hrest := ih fun byte h => hfinite byte (List.mem_cons_of_mem _ h)
    cases item with
    | bytes data taken => exact exists_yields_of_bytes hrest data _ taken rfl buffer n
    | fill byte => exact absurd List.mem_cons_self (hfinite byte)
    | failure cause =>
      apply exists_yields_of_read
      · simp only [read]
        split <;> simp
      · exact fun _ => hrest buffer
    | crash => exact ⟨[], 1, .last rfl⟩
    | overrun excess =>
      apply exists_yields_of_read
      · simp only [read]
        split <;> simp
      · exact fun _ => hrest buffer

end Input
end MediaRelay
