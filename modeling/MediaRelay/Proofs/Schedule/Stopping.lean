import MediaRelay.Proofs.Schedule.Tickets

/-! # Stopping a loop

A call of `stop` from outside puts the command in line, takes the handle of the thread out of its
lock and joins the thread, which it can do only when the thread has ended. The lock is held
meanwhile: whoever else calls `stop` gets at it afterwards, finds no handle there and returns. On
the loop's own thread a call of `stop` is an act, which only puts the command in line.
-/
namespace MediaRelay

namespace Thread

def Move.isTurn : Move → Bool
  | .turn => true
  | _ => false

variable {x : Thread}

/-! ## The end of the loop -/

theorem running_line (x : Thread) (c : Command) (inside : Bool) :
    (x.line c inside).loop.running = x.loop.running := by
  simp only [Thread.line, Loop.enqueue]
  split <;> rfl

theorem stopped_turn {y : Thread} (hturn : x.turn? = some y) (h : x.loop.running = false) :
    y.loop.running = false := by
  unfold turn? at hturn
  split at hturn
  · rename_i a rest o _
    cases hturn
    cases a with
    | post job => exact (running_line _ _ _).trans h
    | timer delay job => exact (running_line _ _ _).trans h
    | stop => exact (running_line _ _ _).trans h
    | crash => cases o <;> first | rfl | exact h
    | _ => exact h
  · rename_i o _
    cases hturn
    cases o <;> exact h
  · split at hturn
    · cases hturn
    · rename_i c rest _
      cases hturn
      cases c <;> first | rfl | exact h

theorem stopped_move (h : x.loop.running = false) (m : Move) :
    (x.move m).loop.running = false := by
  cases m with
  | post job => exact (running_line _ _ _).trans h
  | send job => exact (running_line _ _ _).trans h
  | timer delay job => exact (running_line _ _ _).trans h
  | stop => exact (running_line _ _ _).trans h
  | elapse time => exact h
  | turn =>
    cases hturn : x.turn? with
    | none => simpa only [move, hturn, Option.getD_none] using h
    | some y => simpa only [move, hturn, Option.getD_some] using stopped_turn hturn h
  | fire n =>
    simp only [move, fire?]
    split
    · split <;> exact h
    · exact h

theorem log_more (moves more : List Move) :
    ∃ new, (run (moves ++ more)).log = (run moves).log ++ new := by
  induction more using List.reverseRecOn with
  | nil => exact ⟨[], by simp⟩
  | append_singleton more m ih =>
    obtain ⟨new, hnew⟩ := ih
    obtain ⟨last, hlast, _⟩ := goes_move (alive_run (moves ++ more)) m
    rw [← List.append_assoc, run_concat]
    exact ⟨new ++ last, by rw [hlast, hnew, List.append_assoc]⟩

theorem over_more {moves : List Move} (h : (run moves).loop.running = false) (more : List Move) :
    (run (moves ++ more)).loop.running = false ∧
      ∃ new, (run (moves ++ more)).log = (run moves).log ++ new ∧
        ∀ r ∈ new, ∃ c, r = .dropped c := by
  obtain ⟨new, hnew⟩ := log_more moves more
  have hended := (ended_iff moves).mpr h
  have hlater : .ended ∈ (run (moves ++ more)).log := by
    rw [hnew]
    exact List.mem_append_left _ hended
  refine ⟨(ended_iff _).mp hlater, new, hnew, ?_⟩
  obtain ⟨before, after, hlog⟩ := List.append_of_mem hended
  have hall : (run (moves ++ more)).log = before ++ .ended :: (after ++ new) := by
    rw [hnew, hlog, List.append_assoc, List.cons_append]
  intro r hr
  exact (ended_last hall).2 r (List.mem_append_right _ hr)

theorem running_of_dropped (moves : List Move) : ∀ c, .dropped c ∈ (run moves).log →
    (run moves).loop.running = false := by
  refine run_induction (P := fun x => ∀ c, .dropped c ∈ x.log → x.loop.running = false)
    (by simp) ?_ moves
  intro x new l d hx hway c hmem
  rcases List.mem_append.mp hmem with hold | hnew
  · have hstopped := hx c hold
    cases hway <;> first | exact hstopped | rfl
  · cases hway with
    | drop other n hstopped => exact hstopped
    | _ => simp at hnew

/-- Once a stop has been called for, a thread that comes to rest has ended. -/
theorem stopped_at_rest {moves : List Move} (h : .stop ∈ moves)
    (hrest : (run moves).turn? = none) : (run moves).loop.running = false := by
  have hcalled : .stop ∈ (run moves).log.filterMap Report.brought? := by
    rw [brought_by_calls]
    exact List.mem_filterMap.mpr ⟨.stop, h, rfl⟩
  obtain ⟨r, hr, hstop⟩ := List.mem_filterMap.mp hcalled
  rcases underway_or_over moves with hunderway | hover
  · cases r with
    | lined c inside =>
      have hidle := idle_of_rest hrest
      have hclean := hunderway.clean
      have hline := hunderway.line
      rw [hidle.1] at hclean
      rw [hidle.2, List.append_nil] at hline
      have hlined : c ∈ (run moves).lined := List.mem_filterMap.mpr ⟨_, hr, rfl⟩
      rw [hline] at hlined
      cases inside with
      | true => cases hstop
      | false =>
        cases c with
        | stop => exact absurd (hclean _ hlined) (by simp [Command.ends])
        | run job ticket => cases hstop
        | timer delay job => cases hstop
    | dropped c => exact running_of_dropped moves c hr
    | _ => cases hstop
  · exact hover.running

theorem leads_stopped {moves : List Move} (h : .stop ∈ moves) :
    ∃ y, Leads (run moves) y ∧ y.loop.running = false := by
  obtain ⟨y, hy, hrest, _⟩ := comes_to_rest (run moves)
  obtain ⟨more, hmore⟩ := hy.comes
  have hrun : y = run (moves ++ more) := by rw [← hmore, run, run, List.foldl_append]
  refine ⟨y, hy, ?_⟩
  rw [hrun] at hrest ⊢
  exact stopped_at_rest (List.mem_append_left _ h) hrest

theorem nothing_after_end {moves : List Move} (h : (run moves).loop.running = false)
    (more : List Move) :
    (run (moves ++ more)).acts = (run moves).acts ∧
      (run (moves ++ more)).begun = (run moves).begun ∧
      (run (moves ++ more)).fired = (run moves).fired := by
  obtain ⟨_, new, hlog, hdropped⟩ := over_more h more
  have hnone : ∀ {β : Type} (f : Report → Option β), (∀ c, f (.dropped c) = none) →
      (run (moves ++ more)).log.filterMap f = (run moves).log.filterMap f := by
    intro β f hf
    rw [hlog, List.filterMap_append]
    refine (congrArg _ (List.filterMap_eq_nil_iff.mpr fun r hr => ?_)).trans (List.append_nil _)
    obtain ⟨c, rfl⟩ := hdropped r hr
    exact hf c
  exact ⟨hnone _ fun _ => rfl, hnone _ fun _ => rfl, hnone _ fun _ => rfl⟩

end Thread

/-! ## Those who call for a stop -/

namespace Stopping

/-- How far a call of `stop` from outside has come. -/
inductive Stage where
  /-- The command is in line; the caller wants the lock. -/
  | asked
  /-- The caller has the handle, and holds the lock. -/
  | joining
  | returned
deriving DecidableEq

inductive Event where
  /-- A move of the thread, or a call on the loop. -/
  | move (m : Thread.Move)
  /-- The caller comes to the lock. -/
  | lock (caller : Nat)
  /-- The thread that the caller joins has ended. -/
  | join (caller : Nat)

def Event.move? : Event → Option Thread.Move
  | .move m => some m
  | _ => none

/-- Events that need no new call and no time to pass. -/
def Event.goesOn : Event → Bool
  | .move m => m.isTurn
  | _ => true

end Stopping

/-- A thread, the handle on it while nobody has taken it, and the calls of `stop` in their order. -/
structure Stopping where
  thread : Thread := {}
  handle : Bool := true
  calls : List Stopping.Stage := []

namespace Stopping

def called : Thread.Move → List Stage
  | .stop => [.asked]
  | _ => []

/-- What an event brings about; one that cannot happen brings about nothing. -/
def step (s : Stopping) : Event → Stopping
  | .move m => { s with thread := s.thread.move m, calls := s.calls ++ called m }
  | .lock n =>
    if s.calls[n]? = some .asked ∧ .joining ∉ s.calls then
      if s.handle then { s with handle := false, calls := s.calls.set n .joining }
      else { s with calls := s.calls.set n .returned }
    else s
  | .join n =>
    if s.calls[n]? = some .joining ∧ s.thread.loop.running = false then
      { s with calls := s.calls.set n .returned }
    else s

def run (events : List Event) : Stopping := events.foldl step {}

theorem run_append (events more : List Event) :
    run (events ++ more) = more.foldl step (run events) :=
  List.foldl_append

@[simp] theorem thread_lock (s : Stopping) (n : Nat) : (s.step (.lock n)).thread = s.thread := by
  simp only [step]
  split
  · split <;> rfl
  · rfl

@[simp] theorem thread_join (s : Stopping) (n : Nat) : (s.step (.join n)).thread = s.thread := by
  simp only [step]
  split <;> rfl

/-- To the thread the callers of `stop` are calls like others. -/
theorem thread_run (events : List Event) :
    (run events).thread = Thread.run (events.filterMap Event.move?) := by
  induction events using List.reverseRecOn with
  | nil => rfl
  | append_singleton events e ih =>
    rw [run_append, List.filterMap_append]
    cases e with
    | move m =>
      simp only [List.foldl_cons, List.foldl_nil, List.filterMap_cons, List.filterMap_nil,
        Event.move?, Thread.run_concat, ← ih]
      rfl
    | lock n => simpa only [List.filterMap_cons, List.filterMap_nil, Event.move?, List.append_nil,
        List.foldl_cons, List.foldl_nil, thread_lock] using ih
    | join n => simpa only [List.filterMap_cons, List.filterMap_nil, Event.move?, List.append_nil,
        List.foldl_cons, List.foldl_nil, thread_join] using ih

/-! ## What the return of a call tells -/

/-- Whoever has returned has joined the thread, or has come to the lock behind somebody who has. -/
structure Settled (s : Stopping) : Prop where
  taken : s.handle = false → Stage.joining ∈ s.calls ∨ s.thread.loop.running = false
  returned : Stage.returned ∈ s.calls → s.thread.loop.running = false
  alone : ∀ m n : Nat, s.calls[m]? = some Stage.joining → s.calls[n]? = some Stage.joining → m = n

variable {s : Stopping}

theorem mem_of_set {n : Nat} {now c : Stage} {calls : List Stage} (h : c ∈ calls.set n now) :
    c ∈ calls ∨ c = now :=
  List.mem_or_eq_of_mem_set h

theorem Settled.move (h : s.Settled) (m : Thread.Move) : (s.step (.move m)).Settled := by
  have hcalled : ∀ c ∈ called m, c = .asked := by
    cases m <;> simp [called]
  have hold : ∀ n : Nat, (s.calls ++ called m)[n]? = some .joining →
      s.calls[n]? = some .joining := by
    intro n hn
    rw [List.getElem?_append] at hn
    split at hn
    · exact hn
    · exact absurd (hcalled _ (List.mem_of_getElem? hn)) (by simp)
  refine ⟨fun hhandle => ?_, fun hreturned => ?_, fun i j hi hj => ?_⟩
  · exact (h.taken hhandle).imp (List.mem_append_left _) (Thread.stopped_move · m)
  · rcases List.mem_append.mp hreturned with hmem | hmem
    · exact Thread.stopped_move (h.returned hmem) m
    · exact absurd (hcalled _ hmem) (by simp)
  · exact h.alone i j (hold i hi) (hold j hj)

theorem Settled.lock (h : s.Settled) (n : Nat) : (s.step (.lock n)).Settled := by
  simp only [step]
  split
  · rename_i hlock
    obtain ⟨hasked, hfree⟩ := hlock
    have hlt : n < s.calls.length := (List.getElem?_eq_some_iff.mp hasked).1
    have hnobody : ∀ i : Nat, s.calls[i]? ≠ some .joining :=
      fun i hi => hfree (List.mem_of_getElem? hi)
    split
    · refine ⟨fun _ => Or.inl (List.mem_set hlt _), fun hreturned => ?_, fun i j hi hj => ?_⟩
      · exact h.returned ((mem_of_set hreturned).resolve_right (by simp))
      · have honly : ∀ k : Nat, (s.calls.set n .joining)[k]? = some .joining → n = k := by
          intro k hk
          by_contra hne
          rw [List.getElem?_set_ne hne] at hk
          exact hnobody k hk
        exact (honly i hi).symm.trans (honly j hj)
    · rename_i hhandle
      have hover := (h.taken (by simpa using hhandle)).resolve_left hfree
      refine ⟨fun _ => Or.inr hover, fun _ => hover, fun i j hi hj => ?_⟩
      have hmem := (mem_of_set (List.mem_of_getElem? hi)).resolve_right (by simp)
      exact absurd hmem hfree
  · exact h

theorem Settled.join (h : s.Settled) (n : Nat) : (s.step (.join n)).Settled := by
  simp only [step]
  split
  · rename_i hjoin
    refine ⟨fun _ => Or.inr hjoin.2, fun _ => hjoin.2, fun i j hi hj => ?_⟩
    have hold : ∀ k : Nat, (s.calls.set n .returned)[k]? = some .joining →
        s.calls[k]? = some .joining := by
      intro k hk
      by_cases hne : n = k
      · subst hne
        rw [List.getElem?_set_self (List.getElem?_eq_some_iff.mp hjoin.1).1] at hk
        cases hk
      · rwa [List.getElem?_set_ne hne] at hk
    exact h.alone i j (hold i hi) (hold j hj)
  · exact h

theorem settled_run (events : List Event) : (run events).Settled := by
  refine List.foldlRecOn (motive := Settled) events step ?_ ?_
  · exact ⟨by simp, by simp, by simp⟩
  · intro s hs e _
    cases e with
    | move m => exact hs.move m
    | lock n => exact hs.lock n
    | join n => exact hs.join n

/-! ## That a call returns -/

theorem returns_of_free (hfree : .joining ∉ s.calls) (hover : s.thread.loop.running = false)
    {n : Nat} (hn : n < s.calls.length) :
    ([.lock n, .join n].foldl step s).calls[n]? = some .returned := by
  simp only [List.foldl_cons, List.foldl_nil]
  cases hstage : s.calls[n] with
  | joining => exact absurd (List.mem_of_getElem hstage) hfree
  | returned => simp [step, hn, hstage]
  | asked => cases hhandle : s.handle <;> simp [step, hn, hstage, hfree, hover, hhandle]

/-- Once the thread has ended, the lock comes free and whoever wants it returns. -/
theorem returns_after_end (h : s.Settled) (hover : s.thread.loop.running = false) {n : Nat}
    (hn : n < s.calls.length) : ∃ more : List Event, (∀ e ∈ more, e.move? = none) ∧
      (more.foldl step s).calls[n]? = some .returned := by
  by_cases hfree : .joining ∈ s.calls
  · obtain ⟨m, hm⟩ := List.mem_iff_getElem?.mp hfree
    have hjoin : s.step (.join m) = { s with calls := s.calls.set m .returned } := by
      simp only [step, hm, hover, and_self, if_true]
    have hnobody : .joining ∉ s.calls.set m .returned := by
      intro hmem
      obtain ⟨k, hk⟩ := List.mem_iff_getElem?.mp hmem
      have hne : m ≠ k := by
        rintro rfl
        simp [(List.getElem?_eq_some_iff.mp hm).1] at hk
      rw [List.getElem?_set_ne hne] at hk
      exact hne (h.alone m k hm hk)
    refine ⟨[.join m, .lock n, .join n], by simp [Event.move?], ?_⟩
    rw [List.foldl_cons, hjoin]
    exact returns_of_free (s := { s with calls := s.calls.set m .returned }) hnobody hover
      (by simpa using hn)
  · exact ⟨[.lock n, .join n], by simp [Event.move?], returns_of_free hfree hover hn⟩

theorem exists_turns {y : Thread} (h : Thread.Leads s.thread y) : ∃ more : List Event,
    (∀ e ∈ more, e.goesOn = true) ∧ more.foldl step s = { s with thread := y } := by
  induction h with
  | refl => exact ⟨[], by simp, rfl⟩
  | tail _ hturn ih =>
    obtain ⟨more, hgoes, hmore⟩ := ih
    refine ⟨more ++ [.move .turn], ?_, ?_⟩
    · simpa [Event.goesOn, Thread.Move.isTurn, or_imp, forall_and] using hgoes
    · rw [List.foldl_append, hmore]
      simp [step, called, Thread.move, hturn]

theorem thread_foldl {more : List Event} (h : ∀ e ∈ more, e.move? = none) (s : Stopping) :
    (more.foldl step s).thread = s.thread := by
  induction more generalizing s with
  | nil => rfl
  | cons e more ih =>
    rw [List.foldl_cons, ih fun e he => h e (List.mem_cons_of_mem _ he)]
    cases e with
    | move m => cases h _ List.mem_cons_self
    | lock n => exact thread_lock s n
    | join n => exact thread_join s n

theorem calls_length_step (s : Stopping) (e : Event) :
    (s.step e).calls.length = s.calls.length + (e.move?.elim [] called).length := by
  cases e with
  | move m => exact List.length_append
  | lock n =>
    simp only [step]
    split
    · split <;> exact List.length_set
    · rfl
  | join n =>
    simp only [step]
    split
    · exact List.length_set
    · rfl

theorem stop_of_called {events : List Event} (h : (run events).calls ≠ []) :
    .stop ∈ events.filterMap Event.move? := by
  induction events using List.reverseRecOn with
  | nil => exact absurd rfl h
  | append_singleton events e ih =>
    rw [List.filterMap_append, List.mem_append]
    by_cases hbefore : (run events).calls = []
    · right
      have hlength := calls_length_step (run events) e
      rw [hbefore] at hlength
      rw [run_append] at h
      cases e with
      | move m =>
        cases m with
        | stop => simp [Event.move?]
        | _ => exact absurd (List.length_eq_zero_iff.mp hlength) h
      | lock n => exact absurd (List.length_eq_zero_iff.mp hlength) h
      | join n => exact absurd (List.length_eq_zero_iff.mp hlength) h
    · exact Or.inl (ih hbefore)

theorem Event.goesOn_of_move? {e : Event} (h : e.move? = none) : e.goesOn = true := by
  cases e with
  | move m => cases h
  | lock n => rfl
  | join n => rfl

theorem return_at_rest {events : List Event} {n : Nat} (hn : n < (run events).calls.length)
    {y : Thread} (hy : Thread.Leads (run events).thread y) (hrest : y.turn? = none) :
    ∃ more, (∀ e ∈ more, e.goesOn = true) ∧ (run (events ++ more)).thread = y ∧
      (run (events ++ more)).calls[n]? = some .returned := by
  have hstop : .stop ∈ events.filterMap Event.move? := by
    refine stop_of_called fun hnil => ?_
    rw [hnil] at hn
    exact absurd hn (Nat.not_lt_zero _)
  obtain ⟨turns, hturns, hthen⟩ := exists_turns hy
  rw [← run_append] at hthen
  have hthread : (run (events ++ turns)).thread = y := by rw [hthen]
  have hover : y.loop.running = false := by
    rw [← hthread, thread_run] at hrest ⊢
    refine Thread.stopped_at_rest ?_ hrest
    rw [List.filterMap_append]
    exact List.mem_append_left _ hstop
  obtain ⟨more, hmore, hreturned⟩ := returns_after_end (n := n) (settled_run (events ++ turns))
    (by rw [hthread, hover]) (by rwa [hthen])
  rw [← run_append] at hreturned
  refine ⟨turns ++ more, fun e he => ?_, ?_, ?_⟩
  · rcases List.mem_append.mp he with he | he
    · exact hturns e he
    · exact Event.goesOn_of_move? (hmore e he)
  · rw [← List.append_assoc, run_append, thread_foldl hmore, hthread]
  · rwa [← List.append_assoc]

/-- Whoever calls for a stop can come back from the call, by turns of the thread and of those who
call for a stop. -/
theorem exists_return {events : List Event} {n : Nat} (hn : n < (run events).calls.length) :
    ∃ more, (∀ e ∈ more, e.goesOn = true) ∧
      (run (events ++ more)).calls[n]? = some .returned := by
  obtain ⟨y, hy, hrest, _⟩ := Thread.comes_to_rest (run events).thread
  obtain ⟨more, hgoes, _, hreturned⟩ := return_at_rest hn hy hrest
  exact ⟨more, hgoes, hreturned⟩

/-- A call of `stop` on an idle thread leaves the loop as `Loop.stop` says, if nobody interferes. -/
theorem exists_stop {events : List Event} (hidle : (run events).thread.doing = none) :
    ∃ more, (∀ e ∈ more, e.goesOn = true) ∧
      let s := run (events ++ .move .stop :: more)
      s.thread.loop = (run events).thread.loop.stop ∧
        s.calls[(run events).calls.length]? = some .returned := by
  have hcalled : run (events ++ [.move .stop]) = (run events).step (.move .stop) := by
    rw [run_append, List.foldl_cons, List.foldl_nil]
  have hlt : (run events).calls.length < (run (events ++ [.move .stop])).calls.length := by
    simp [hcalled, step, called]
  obtain ⟨y, hy, hrest, hloop⟩ :=
    Thread.leads_drain (x := (run (events ++ [.move .stop])).thread) (by rw [hcalled]; exact hidle)
  obtain ⟨more, hgoes, hthread, hreturned⟩ := return_at_rest hlt hy hrest
  rw [List.append_assoc, List.singleton_append] at hthread hreturned
  refine ⟨more, hgoes, ?_, hreturned⟩
  rw [hthread, hloop, hcalled]
  rfl

end Stopping
end MediaRelay
