import MediaRelay.Proofs.Stream.Reads

/-! # The producer at rest

A producer that is left to itself fills the ring and then stops: every read that brings anything
takes some of the room, and nothing but the clients can make room again. So only so many reads bring
anything, whatever the input has to offer, and only interruptions can draw out the way. What has
come in is never more than the ring holds from its floor on.
-/
namespace MediaRelay
variable {σ : Type}

namespace Draw
variable (read : σ → Nat → Reading × σ)

/-- What the read under way has brought when it comes back, if the producer goes on then. -/
def gain? (x : Draw σ) : Option Nat :=
  x.source.reserved.bind fun span => (read x.input span.length).1.gain? span.length

def brings (x : Draw σ) : Bool := (x.gain? read).any (0 < ·)

def interrupted (x : Draw σ) : Bool := x.gain? read = some 0

def alone : Nat → Draw σ → Draw σ
  | 0, x => x
  | n + 1, x => alone n (x.move read .produce)

/-- How many of the producer's next steps start from where the given is so. -/
def tally (p : Draw σ → Bool) : Nat → Draw σ → Nat
  | 0, _ => 0
  | n + 1, x => (if p x then 1 else 0) + tally p n (x.move read .produce)

/-- Where a producer stops: at the end, or where the ring has no room for a block. Or else its input
keeps it waiting. -/
def Resting (x : Draw σ) : Prop :=
  x.source.ended = true ∨
    x.source.capacity < x.source.used + x.source.sizing.blockSize ∧
      x.source.used ≤ x.source.capacity ∨
    ∃ span, x.source.reserved = some span ∧ (read x.input span.length).1 = .pending

/-- What a producer has before it, interruptions apart: two steps for each read that brings
anything. -/
def toGo (x : Draw σ) : Nat :=
  if x.source.ended then 0
  else 2 * (x.source.capacity - x.source.used) + if x.source.reserved = none then 1 else 0

/-- The input does not interrupt the producer for ever. -/
def Answers (x : Draw σ) : Prop := ∀ n, ∃ m, n ≤ m ∧ (x.alone read m).interrupted read = false

variable {read} {x y : Draw σ}

theorem again_of_interrupted (h : x.interrupted read = true) :
    ∃ span i, x.source.reserved = some span ∧ read x.input span.length = (.interrupted, i) ∧
      x.move read .produce = { x with input := i, asked := x.asked ++ [span.length] } := by
  have hgain : x.gain? read = some 0 := of_decide_eq_true h
  obtain ⟨span, hs, hspan⟩ := Option.bind_eq_some_iff.mp hgain
  have hi : read x.input span.length = (.interrupted, (read x.input span.length).2) :=
    Prod.ext (Reading.eq_interrupted_of_gain? hspan) rfl
  refine ⟨span, _, hs, hi, ?_⟩
  simp only [move, produce?, hs]
  rw [hi]
  rfl

theorem gain?_of_produce? (hp : x.produce? read = none) : x.gain? read = none := by
  cases hs : x.source.reserved with
  | none => simp only [gain?, hs, Option.bind_none]
  | some span =>
    simp only [gain?, hs, Option.bind_some, pending_of_produce? hp hs]
    rfl

theorem resting_of_produce? (h : x.source.Keeps x.stream) (hp : x.produce? read = none) :
    x.Resting read := by
  cases hs : x.source.reserved with
  | some span => exact Or.inr (Or.inr ⟨span, hs, pending_of_produce? hp hs⟩)
  | none =>
    cases hopen : x.source.ended with
    | true => exact Or.inl hopen
    | false =>
      right; left
      refine ⟨Nat.lt_of_not_le fun hroom => ?_, h.used_le⟩
      have hfree := Source.reserve_of_room hopen hs hroom
      rw [reserve?_of_produce? hp hs] at hfree
      cases hfree

/-- What a step costs, and what it brings. -/
structure Paid (read : σ → Nat → Reading × σ) (x y : Draw σ) : Prop where
  keeps : y.source.Keeps y.stream
  capacity : y.source.capacity = x.source.capacity
  used : x.source.used + (if x.brings read then 1 else 0) ≤ y.source.used
  toGo : y.toGo + 1 ≤ x.toGo + if x.interrupted read then 1 else 0

theorem toGo_of_open {x : Draw σ} (hopen : x.source.ended = false) :
    x.toGo = 2 * (x.source.capacity - x.source.used) +
      if x.source.reserved = none then 1 else 0 := by
  simp only [toGo, hopen, Bool.false_eq_true, if_false]

theorem Advance.paid (ha : Advance read x y) (h : x.source.Keeps x.stream) : Paid read x y := by
  cases ha with
  | reserve span s hs hv =>
    have hact : (x.act .reserve).source = s := by simp [Flow.act, Source.act, hv]
    have hgain : x.gain? read = none := by simp [gain?, hs]
    obtain ⟨hopen, _, rfl, rfl⟩ := Source.reserve?_eq_some hv
    refine ⟨h.reserve, by rw [hact]; rfl, ?_, ?_⟩
    · simp [hact, brings, hgain]
    · rw [toGo_of_open hopen, toGo_of_open (by rw [hact]; exact hopen)]
      simp [hact, interrupted, hgain, hs, Source.capacity]
  | again span i hs hi =>
    have hgain : x.gain? read = some 0 := by simp [gain?, hs, hi, Reading.gain?]
    refine ⟨h, rfl, ?_, ?_⟩
    · simp [brings, hgain]
    · simp [interrupted, hgain, Draw.toGo]
  | last span r i hs hi hlast =>
    have hgain : x.gain? read = none := by simp [gain?, hs, hi, Reading.gain?_of_isLast hlast]
    obtain ⟨_, hroom, hopen⟩ := h.reserved span hs
    have hb := h.block_pos
    have hx := toGo_of_open hopen
    refine ⟨h.finish, rfl, ?_, ?_⟩
    · simp [brings, hgain, Source.finish]
    · have hy : toGo { x with source := x.source.finish, input := i } = 0 := rfl
      omega
  | more span data i hs hi hpos hle =>
    have hgain : x.gain? read = some data.size := by
      simp only [gain?, hs, hi, Option.bind_some, Reading.gain?_bytes hpos hle]
    have hkeeps := h.append hs hle
    have hused : x.source.used + data.size ≤ x.source.capacity := hkeeps.used_le
    have hopen := (h.reserved span hs).2.2
    refine ⟨hkeeps, rfl, ?_, ?_⟩
    · simp only [brings, hgain, Option.any_some, decide_eq_true hpos, if_true]
      exact Nat.add_le_add_left hpos _
    · rw [toGo_of_open hopen, toGo_of_open (by exact hopen)]
      change 2 * (x.source.capacity - (x.source.used + data.size)) + 1 + 1 ≤ _
      omega

theorem keeps_produce (h : x.source.Keeps x.stream) :
    (x.move read .produce).source.Keeps (x.move read .produce).stream := by
  rcases x.move_produce read with ⟨_, he⟩ | ha
  · rw [he]
    exact h
  · exact (ha.paid h).keeps

theorem alone_of_waiting (hp : x.produce? read = none) (n : Nat) : x.alone read n = x := by
  have hstay : x.move read .produce = x := by simp [move, hp]
  induction n with
  | zero => rfl
  | succ n ih =>
    rw [alone, hstay]
    exact ih

theorem alone_add (x : Draw σ) (n m : Nat) :
    x.alone read (n + m) = (x.alone read n).alone read m := by
  induction n generalizing x with
  | zero => rw [Nat.zero_add, alone]
  | succ n ih => rw [Nat.succ_add, alone, alone, ih]

theorem keeps_alone (h : x.source.Keeps x.stream) (n : Nat) :
    (x.alone read n).source.Keeps (x.alone read n).stream := by
  induction n generalizing x with
  | zero => exact h
  | succ n ih => exact ih (keeps_produce h)

variable (read) in
/-- Every read that brings anything takes some of the room. -/
theorem used_add_tally_le (h : x.source.Keeps x.stream) (n : Nat) :
    x.source.used + x.tally read (brings read) n ≤ x.source.capacity := by
  induction n generalizing x with
  | zero => exact h.used_le
  | succ n ih =>
    rw [tally]
    rcases x.move_produce read with ⟨hp, he⟩ | ha
    · have hrest := ih h
      have hnone : x.brings read = false := by rw [brings, gain?_of_produce? hp, Option.any_none]
      rw [he, hnone, if_neg Bool.false_ne_true, Nat.zero_add]
      exact hrest
    · have hpaid := ha.paid h
      have hrest := ih hpaid.keeps
      have hused := hpaid.used
      rw [hpaid.capacity] at hrest
      omega

variable (read) in
/-- Interruptions apart, the producer has only so many steps to go. -/
theorem waiting_or_toGo_le (h : x.source.Keeps x.stream) (n : Nat) :
    (x.alone read n).produce? read = none ∨
      n + (x.alone read n).toGo ≤ x.toGo + x.tally read (interrupted read) n := by
  induction n generalizing x with
  | zero => exact Or.inr (Nat.le_of_eq (Nat.zero_add _))
  | succ n ih =>
    rw [tally, alone]
    rcases x.move_produce read with ⟨hp, he⟩ | ha
    · left
      rw [he, alone_of_waiting hp]
      exact hp
    · have hpaid := ha.paid h
      rcases ih hpaid.keeps with hwaits | hle
      · exact Or.inl hwaits
      · right
        have htoGo := hpaid.toGo
        omega

theorem Answers.move (h : x.Answers read) : (x.move read .produce).Answers read := by
  intro n
  obtain ⟨m, hle, hm⟩ := h (n + 1)
  cases m with
  | zero => omega
  | succ m => exact ⟨m, Nat.le_of_succ_le_succ hle, hm⟩

/-- A producer that is not interrupted for ever comes to a stop. -/
theorem Answers.exists_waiting (ha : x.Answers read) (h : x.source.Keeps x.stream) :
    ∃ n, (x.alone read n).produce? read = none := by
  induction hw : x.toGo using Nat.strongRecOn generalizing x with
  | ind w ih =>
    obtain ⟨m, -, hm⟩ := ha 0
    induction m generalizing x with
    | zero =>
      have hanswered : x.interrupted read = false := hm
      rcases x.move_produce read with ⟨hp, _⟩ | hnext
      · exact ⟨0, hp⟩
      · have hpaid := hnext.paid h
        have hless := hpaid.toGo
        rw [hanswered, if_neg Bool.false_ne_true] at hless
        obtain ⟨n, hn⟩ := ih _ (by omega) ha.move hpaid.keeps rfl
        exact ⟨n + 1, hn⟩
    | succ m next =>
      rcases x.move_produce read with ⟨hp, _⟩ | hnext
      · exact ⟨0, hp⟩
      · have hpaid := hnext.paid h
        have hle : (x.move read .produce).toGo ≤ w := by
          have htoGo := hpaid.toGo
          split at htoGo <;> omega
        -- If there is as much to go as before, the next answer is still one step nearer.
        rcases Nat.lt_or_eq_of_le hle with hless | heq
        · obtain ⟨n, hn⟩ := ih _ hless ha.move hpaid.keeps rfl
          exact ⟨n + 1, hn⟩
        · obtain ⟨n, hn⟩ := next ha.move hpaid.keeps heq hm
          exact ⟨n + 1, hn⟩

end Draw

/-! ## Inputs that are given as items -/

theorem Input.length_items_read (i : Input) (length : Nat) :
    (i.read length).2.items.length ≤ i.items.length ∧
      ((i.read length).1 = .interrupted →
        (i.read length).2.items.length < i.items.length) := by
  obtain ⟨items, gated, buffer⟩ := i
  cases items with
  | nil => cases gated <;> simp [read]
  | cons item rest =>
    cases item with
    | bytes data taken =>
      simp only [read, reduceCtorEq, false_implies, and_true]
      split <;> simp
    | fill byte => simp [read, write]
    | failure cause => simp [read]
    | crash => simp [read]
    | overrun excess => simp [read]

namespace Draw
variable {x y : Draw Input}

theorem Advance.length_items (ha : Advance Input.read x y) :
    y.input.items.length + (if x.interrupted Input.read then 1 else 0) ≤
      x.input.items.length := by
  cases ha with
  | reserve span s hs hv => simp [interrupted, gain?, hs]
  | again span i hs hi =>
    have hless : i.items.length < x.input.items.length := by
      have hread := (x.input.length_items_read span.length).2 (by rw [hi])
      rwa [hi] at hread
    change i.items.length + _ ≤ _
    split <;> omega
  | last span r i hs hi hlast =>
    have hle := (x.input.length_items_read span.length).1
    rw [hi] at hle
    simpa [interrupted, gain?, hs, hi, Reading.gain?_of_isLast hlast] using hle
  | more span data i hs hi hpos hle =>
    have hrest := (x.input.length_items_read span.length).1
    rw [hi] at hrest
    simp only [interrupted, gain?, hs, hi, Option.bind_some, Reading.gain?_bytes hpos hle]
    simpa [Nat.ne_of_gt hpos] using hrest

theorem tally_interrupted_le (n : Nat) :
    x.tally Input.read (interrupted Input.read) n ≤ x.input.items.length := by
  induction n generalizing x with
  | zero => exact Nat.zero_le _
  | succ n ih =>
    rw [tally]
    rcases x.move_produce Input.read with ⟨hp, he⟩ | ha
    · have hnone : x.interrupted Input.read = false := by
        rw [interrupted, gain?_of_produce? hp]
        rfl
      rw [he, hnone, if_neg Bool.false_ne_true, Nat.zero_add]
      exact ih
    · have hitems := ha.length_items
      have hrest := ih (x := x.move Input.read .produce)
      omega

theorem toFeed_alone (x : Draw Input) (n : Nat) :
    (x.alone Input.read n).toFeed = Feed.steps n x.toFeed := by
  induction n generalizing x with
  | zero => rfl
  | succ n ih =>
    have hstep := x.toFeed_produce?
    cases hp : x.produce? Input.read with
    | none =>
      rw [hp] at hstep
      simp only [alone_of_waiting hp, Feed.steps, ← hstep, Option.map_none]
    | some y =>
      rw [hp] at hstep
      have hmove : x.move Input.read .produce = y := by simp [move, hp]
      simp only [alone, hmove, Feed.steps, ← hstep, Option.map_some, ih]

end Draw

/-- The steps that a feed is given are enough for its producer to come to a stop. -/
theorem Feed.step?_settle {f : Feed} {stream : List UInt8} (h : f.source.Keeps stream) :
    f.settle.step? = none := by
  let x : Draw Input := ⟨⟨f.source, stream⟩, f.input, f.asked.reverse⟩
  have hx : x.toFeed = f := by simp [x, Draw.toFeed]
  have hkeeps : x.source.Keeps x.stream := h
  have hsettle : f.settle = (x.alone Input.read f.budget).toFeed := by
    rw [Draw.toFeed_alone, hx]
    rfl
  have hwaits : (x.alone Input.read f.budget).produce? Input.read = none := by
    rcases Draw.waiting_or_toGo_le Input.read hkeeps f.budget with hwaits | hle
    · exact hwaits
    · have hitems := Draw.tally_interrupted_le (x := x) f.budget
      have htoGo : x.toGo ≤ 2 * (f.source.capacity - f.source.used) + 1 := by
        unfold Draw.toGo
        split
        · omega
        · split <;> simp [x]
      have hbudget : f.budget =
        2 * (f.input.items.length + (f.source.capacity - f.source.used)) + 2 := rfl
      change _ ≤ f.input.items.length at hitems
      omega
  rw [hsettle, ← Draw.toFeed_produce?, hwaits, Option.map_none]

namespace Draw
variable (read : σ → Nat → Reading × σ)

/-- However a source has been used, and whatever its producer reads from now on: while no client
does anything, no more reads bring anything than there is room for bytes, and what else the producer
does is two steps for each of them, one more, and the interruptions. So it comes to a stop unless it
is interrupted for ever; the steps of a feed are enough for that. It stops only at the end, or where
the ring has no room for a block, or when its input keeps it waiting. And what has come in so far is
no more than the ring holds from its floor, or from any cursor on. -/
theorem producer_comes_to_rest (z : Sizing) (actions : List Source.Action) (i : σ) :
    let s := (Flow.run z actions).source
    let x : Draw σ := { toFlow := Flow.run z actions, input := i }
    (∀ n, x.tally read (brings read) n ≤ s.capacity - s.used) ∧
    (∀ n, (x.alone read n).produce? read = none ∨
      n ≤ 2 * (s.capacity - s.used) + 1 + x.tally read (interrupted read) n) ∧
    (x.Answers read → ∃ n, (x.alone read n).produce? read = none ∧
      ∀ m, n ≤ m → x.alone read m = x.alone read n) ∧
    (∀ n, (x.alone read n).produce? read = none → (x.alone read n).Resting read) ∧
    (∀ items : Input, ({ source := s, input := items } : Feed).settle.step? = none) ∧
    x.stream.length ≤ s.floor + s.capacity ∧
    ∀ id c, s.cursors.get? id = some c → x.stream.length ≤ c.offset + s.capacity := by
  intro s x
  have h : x.source.Keeps x.stream := Flow.keeps_run z actions
  have hused := h.used_le
  have hhigh : s.floor + s.used = x.stream.length := h.high_eq
  have htoGo : x.toGo ≤ 2 * (s.capacity - s.used) + 1 := by
    unfold Draw.toGo
    split
    · omega
    · split <;> simp [x, s]
  have hstream : x.stream.length ≤ s.floor + s.capacity := by
    rw [← hhigh]
    exact Nat.add_le_add_left hused _
  refine ⟨?_, ?_, ?_, ?_, fun items => Feed.step?_settle h, hstream, ?_⟩
  · intro n
    have hle := used_add_tally_le read h n
    change s.used + _ ≤ s.capacity at hle
    omega
  · intro n
    rcases waiting_or_toGo_le read h n with hwaits | hle
    · exact Or.inl hwaits
    · right
      omega
  · intro ha
    obtain ⟨n, hn⟩ := ha.exists_waiting h
    refine ⟨n, hn, ?_⟩
    intro m hm
    obtain ⟨k, rfl⟩ := Nat.exists_eq_add_of_le hm
    rw [alone_add, alone_of_waiting hn]
  · exact fun n hn => resting_of_produce? (keeps_alone h n) hn
  · intro id c hc
    have hfloor := (h.cursor id c hc).1
    change s.floor ≤ c.offset at hfloor
    omega

-- An input without an end fills a ring of four bytes, and is then left alone.
example :
    let f : Feed := { source := .start ⟨1, 4⟩, input := { items := [.fill 7] } }
    f.settle.source.used = 4 ∧ f.settle.source.ended = false := by
  decide +kernel

end Draw
end MediaRelay
