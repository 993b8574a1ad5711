import MediaRelay.Proofs.Relay.Callers
import MediaRelay.Proofs.Relay.Draining
import MediaRelay.Proofs.Relay.Outcomes

/-! # Calls return

At whatever point a call is, it returns if the thread does its work and the read of its input comes
to something. If nobody else does anything in between, the steps of a call are those by which a
connection is opened at once. So opening a connection ends in one of three ways, after anything that
has happened before and whatever happens meanwhile.
-/
namespace MediaRelay

namespace Opening
variable {o : Opener} {m : ManagerId} {first : SourceId} {x : Opening}

theorem go_at {r : Relay} {s : Opener.Stage} (h : x.relay = r ∧ x.stage = s) :
    (x.act o .go).relay = (o.step r s).2 ∧ (x.act o .go).stage = (o.step r s).1 := by
  obtain ⟨rfl, rfl⟩ := h
  exact ⟨rfl, rfl⟩

/-! ## The thread is all that it takes -/

def Serving (a : Act) : Prop := a = .go ∨ a = .other (.move .run)

/-- Or else a producer goes on, or comes to have something to read. -/
def Supplying (a : Act) : Prop :=
  Serving a ∨ (∃ k, a = .other (.move (.produce k))) ∨ ∃ k items, a = .other (.move (.feed k items))

/-- By acts of this kind alone the call gets there. -/
def Leads (o : Opener) (x : Opening) (kind : Act → Prop) (goal : Opening → Prop) : Prop :=
  ∃ acts, (∀ a ∈ acts, kind a) ∧ goal (x.run o acts)

theorem run_append (o : Opener) (x : Opening) (acts more : List Act) :
    x.run o (acts ++ more) = (x.run o acts).run o more := List.foldl_append

theorem heedRun_of_serving {acts : List Act} (h : ∀ a ∈ acts, Serving a) : x.HeedRun o acts := by
  induction acts generalizing x with
  | nil => trivial
  | cons a rest ih =>
    obtain ⟨ha, hrest⟩ := List.forall_mem_cons.mp h
    refine ⟨?_, ih hrest⟩
    rcases ha with rfl | rfl
    · trivial
    · exact ⟨rfl, by rintro s ⟨⟩⟩

namespace Leads
variable {kind : Act → Prop} {goal : Opening → Prop}

theorem here (h : goal x) : x.Leads o kind goal := ⟨[], List.forall_mem_nil _, h⟩

theorem of_run {acts : List Act} (hacts : ∀ a ∈ acts, kind a)
    (h : (x.run o acts).Leads o kind goal) : x.Leads o kind goal := by
  obtain ⟨more, hmore, hgoal⟩ := h
  exact ⟨acts ++ more, List.forall_mem_append.mpr ⟨hacts, hmore⟩, by rwa [run_append]⟩

theorem of_act {a : Act} (ha : kind a) (h : (x.act o a).Leads o kind goal) :
    x.Leads o kind goal :=
  of_run (List.forall_mem_singleton.mpr ha) h

end Leads

/-- The thread does all that it has to do. -/
theorem exists_drain (o : Opener) (x : Opening) :
    ∃ acts, (∀ a ∈ acts, Serving a) ∧ (x.run o acts).relay = x.relay.drain ∧
      ((x.run o acts).stage = x.stage ∨
        ∃ l, x.stage = .waiting l ∧ (x.run o acts).stage = .listed l) := by
  obtain ⟨n, hdrain⟩ := x.relay.exists_runDeeds_drain
  refine ⟨List.replicate n (.other (.move .run)), ?_, ?_⟩
  · exact fun a ha => Or.inr (List.eq_of_mem_replicate ha)
  · rw [hdrain]
    clear hdrain
    induction n generalizing x with
    | zero => exact ⟨rfl, Or.inl rfl⟩
    | succ n ih =>
      obtain ⟨hrelay, hstage⟩ := ih (x.act o (.other (.move .run)))
      refine ⟨hrelay, ?_⟩
      rcases stage_other o x (.move .run) with hsupplied | ⟨l, hwaiting, hlisted⟩
      · have hsame : x.stage.supplied (.move .run) = x.stage := by
          cases x.stage <;> rfl
        rw [hsupplied, hsame] at hstage
        exact hstage
      · refine Or.inr ⟨l, hwaiting, ?_⟩
        rcases hstage with hsame | ⟨j, hwaits, _⟩
        · exact hsame.trans hlisted
        · cases hlisted.symm.trans hwaits

theorem Sound.returns_of_waiting (h : x.Sound o m first) {l : Listener} (hs : x.stage = .waiting l)
    (hrunning : x.relay.agenda.stopped = false) :
    x.Leads o Supplying fun y => y.stage.result?.isSome := by
  obtain ⟨acts, hacts, hrelay, hstage⟩ := exists_drain o x
  refine ⟨acts, fun a ha => Or.inl (hacts a ha), ?_⟩
  rcases hstage with hwaiting | ⟨j, _, hlisted⟩
  · exfalso
    rw [hs] at hwaiting
    have hung := (h.stands.anchored (by rw [hs]; rfl)).hung
    have hdrained := Relay.drained_drain (hung.settling hrunning)
    have hstands := (h.run (heedRun_of_serving hacts) (by rw [hwaiting]; rfl)).stands
    rw [hwaiting, hrelay] at hstands
    have hasked := (Relay.Hosts.solo (Opener.Owns.hosts hstands) l rfl).asked
    rw [hdrained.settling.running, Relay.asking, hdrained.queue] at hasked
    cases hasked
  · rw [hlisted]
    rfl

/-- Where there is something to read, a read comes to something; it is tried again only after an
interruption, which is used up. -/
theorem read_of_cons {i j : Input} {item : InputItem} {items : List InputItem}
    (h : i.items = item :: items) {n : Nat} {reading : Reading} (hread : i.read n = (reading, j)) :
    reading ≠ .pending ∧ (reading = .interrupted → j.items = items) := by
  simp only [Input.read, h] at hread
  cases item with
  | failure cause =>
    simp only [Prod.mk.injEq] at hread
    obtain ⟨rfl, rfl⟩ := hread
    refine ⟨?_, fun _ => rfl⟩
    split <;> simp
  | overrun excess =>
    simp only [Prod.mk.injEq] at hread
    obtain ⟨rfl, rfl⟩ := hread
    refine ⟨?_, fun _ => rfl⟩
    split <;> simp
  | _ =>
    simp only [Prod.mk.injEq] at hread
    obtain ⟨rfl, rfl⟩ := hread
    exact ⟨by simp, by simp⟩

/-- When the read has come to something, there is nothing more to wait for. -/
theorem returns_of_read {k : SourceId} {f : Feed} {span : Span} {i : Input} {reading : Reading}
    (hs : x.stage = .closing k f) (hread : f.source.reserved = some span)
    (hreading : f.input.read span.length = (reading, i)) (hpending : reading ≠ .pending)
    (hinterrupted : reading ≠ .interrupted) :
    x.Leads o Supplying fun y => y.stage.result?.isSome := by
  have hstep : f.step? = some { f with source := f.source.receive reading, input := i } := by
    simp only [Feed.step?, hread, hreading]
  have hback : (f.source.receive reading).reserved = none := by
    simp only [Source.receive, hread]
    cases reading with
    | pending => exact absurd rfl hpending
    | interrupted => exact absurd rfl hinterrupted
    | bytes data =>
      change (if data.size = 0 ∨ span.length < data.size then f.source.finish
        else f.source.append span data).reserved = none
      split <;> rfl
    | failed cause => rfl
    | crashed => rfl
  let y := x.act o (.other (.move (.produce k)))
  have hclosing : y.stage =
      .closing k { f with source := f.source.receive reading, input := i } := by
    change (x.stage.answered (x.relay.listing? _)).supplied (.move (.produce k)) = _
    rw [hs]
    simp only [Opener.Stage.answered, Opener.Stage.supplied, if_true, hstep, Option.getD_some]
  have hdone := go_at (o := o) (x := y) ⟨rfl, hclosing⟩
  simp only [Opener.step, hback, Option.isSome_none, Bool.false_eq_true, if_false] at hdone
  refine .of_act (Or.inr (Or.inl ⟨k, rfl⟩)) (.of_act (Or.inl (Or.inl rfl)) (.here ?_))
  rw [hdone.2]
  rfl

/-- The induction is on what is to be read: of that, interruptions alone leave the read under
way. -/
theorem returns_of_closing {k : SourceId} {f : Feed} (hs : x.stage = .closing k f) :
    x.Leads o Supplying fun y => y.stage.result?.isSome := by
  cases hread : f.source.reserved with
  | none =>
    have hdone := go_at (o := o) (x := x) ⟨rfl, hs⟩
    simp only [Opener.step, hread, Option.isSome_none, Bool.false_eq_true, if_false] at hdone
    refine .of_act (Or.inl (Or.inl rfl)) (.here ?_)
    rw [hdone.2]
    rfl
  | some span =>
    induction hitems : f.input.items generalizing x f with
    | nil =>
      cases hgated : f.input.gated with
      | false =>
        have hreading : f.input.read span.length = (.bytes ByteArray.empty, f.input) := by
          simp [Input.read, hitems, hgated]
        exact returns_of_read hs hread hreading (by simp) (by simp)
      | true =>
        -- An input from outside has to be fed before the read can come to anything.
        let fed : Feed := { f with input := f.input.feed [.fill 0] }
        let y := x.act o (.other (.move (.feed k [.fill 0])))
        have hfed : y.stage = .closing k fed := by
          change (x.stage.answered (x.relay.listing? _)).supplied (.move (.feed k [.fill 0])) = _
          rw [hs]
          simp only [Opener.Stage.answered, Opener.Stage.supplied, if_true, fed]
        have hreading : fed.input.read span.length =
            (.bytes (repeated 0 span.length), fed.input.write (repeated 0 span.length)) := by
          simp [fed, Input.read, Input.feed, hitems]
        refine .of_act (Or.inr (Or.inr ⟨k, [.fill 0], rfl⟩)) ?_
        exact returns_of_read (x := y) hfed hread hreading (by simp) (by simp)
    | cons item items ih =>
      cases hreading : f.input.read span.length with
      | mk reading i =>
        obtain ⟨hpending, hused⟩ := read_of_cons hitems hreading
        by_cases hinterrupted : reading = .interrupted
        · subst hinterrupted
          let again : Feed := { f with input := i, asked := span.length :: f.asked }
          let y := x.act o (.other (.move (.produce k)))
          have hstep : f.step? = some again := by
            simp only [Feed.step?, hread, hreading, again]
          have hagain : y.stage = .closing k again := by
            change (x.stage.answered (x.relay.listing? _)).supplied (.move (.produce k)) = _
            rw [hs]
            simp only [Opener.Stage.answered, Opener.Stage.supplied, if_true, hstep,
              Option.getD_some]
          refine .of_act (Or.inr (Or.inl ⟨k, rfl⟩)) ?_
          exact ih (x := y) hagain hread (hused rfl)
        · exact returns_of_read hs hread hreading hpending hinterrupted

/-- At no point does a call need more to return than that the thread does its work, and that the
read comes to something in which the producer of a source that is closed may sit. -/
theorem Sound.returns (h : x.Sound o m first) :
    x.Leads o Supplying fun y => y.stage.result?.isSome := by
  -- Where the call need not wait, its own step is one nearer to the end.
  induction hn : x.stage.toGo using Nat.strongRecOn generalizing x with
  | ind n ih =>
    subst hn
    cases hopen : x.stage.result? with
    | some r => exact .here (by rw [hopen]; rfl)
    | none =>
      by_cases hwaits : x.stage.Waits x.relay
      · cases hs : x.stage with
        | waiting l =>
          rw [hs] at hwaits
          exact h.returns_of_waiting hs hwaits
        | closing k f => exact returns_of_closing hs
        | _ =>
          rw [hs] at hwaits
          cases hwaits
      · refine .of_act (Or.inl (Or.inl rfl)) ?_
        cases hnext : (x.act o .go).stage.result? with
        | some r => exact .here (by rw [hnext]; rfl)
        | none => exact ih _ ((h.steps hopen).goes.nearer hwaits) (h.go hopen hnext) rfl

/-! ## A call without others -/

theorem sound_start (c : Settings) (catalog : Catalog) {deeds : List Deed}
    (hlisted : ∀ request k, .list request k ∉ deeds)
    (hquiet : ∀ s, .move (.subscribe s) ∈ deeds → s.Quiet)
    (hname : (Relay.runDeeds c catalog deeds).listeners.get? o.name = none) :
    (start c catalog deeds).Sound o 0 (Relay.runDeeds c catalog deeds).nextSource where
  kempt := (Relay.kept_foldl _ deeds).1 (Relay.kempt_start c catalog)
  hushed := (Relay.Hushed.start c catalog).foldl (Relay.hung_start c catalog) hquiet
  managed := (Relay.kept_foldl _ deeds).2
  starts := rfl
  later := Nat.le_refl _
  stands :=
    { anchored := (Relay.Anchored.start c catalog).foldl hlisted
      listener := hname
      solo := by rintro _ ⟨⟩ }

end Opening
end MediaRelay
