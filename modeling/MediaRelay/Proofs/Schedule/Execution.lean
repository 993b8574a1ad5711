import MediaRelay.Proofs.Schedule.Order
import Mathlib.Data.List.Perm.Basic

/-! # What a loop executes

Of every job that is begun the acts are performed in a row, those of a job sent on the spot right
behind the call, and nothing else is performed. Of the timers that a loop has accepted each fires at
most once, not before it is due. Together with the order of the line this is all that a loop does,
whatever calls come from outside and from the jobs themselves.
-/
namespace MediaRelay

/-- The command that a call from outside asks for, without a ticket. -/
def Thread.Move.command? : Thread.Move → Option Command
  | .post job => some (.run job none)
  | .send job => some (.run job none)
  | .timer delay job => some (.timer delay job)
  | .stop => some .stop
  | _ => none

def Command.bare : Command → Command
  | .run job _ => .run job none
  | c => c

namespace Thread

/-- The commands that calls from outside brought, put in line or dropped. -/
def Report.brought? : Report → Option Command
  | .lined c false => some c.bare
  | .dropped c => some c.bare
  | _ => none

def acts (x : Thread) : List Act := x.log.filterMap Report.act?

def coming (x : Thread) : List Act := x.doing.elim [] fun e => Job.acts e.rest

def begun (x : Thread) : List Job := x.log.filterMap Report.begun?

def issued (x : Thread) : List Command := x.log.filterMap Report.issued?

def accepted (x : Thread) : List (Timer Job) := x.log.filterMap Report.accepted?

def fired (x : Thread) : List (Timer Job) := x.log.filterMap Report.fired?

variable {x : Thread}

/-! ## Acts -/

theorem acts_in_a_row (moves : List Move) :
    (run moves).acts ++ (run moves).coming = (run moves).begun.flatMap Job.acts := by
  refine run_induction (P := fun x => x.acts ++ x.coming = x.begun.flatMap Job.acts) rfl ?_ moves
  intro x new l d hx hway
  -- What has been to come is performed now or is still to come, and so is what is begun now.
  suffices h : new.filterMap Report.act? ++ d.elim [] (fun e => Job.acts e.rest)
      = x.coming ++ (new.filterMap Report.begun?).flatMap Job.acts by
    simp only [acts, begun, coming, List.filterMap_append, List.flatMap_append, List.append_assoc]
      at hx h ⊢
    rw [h, ← List.append_assoc, hx]
  cases hway with
  | stay => exact (List.append_nil _).symm
  | elapse time => exact (List.append_nil _).symm
  | line c n _ => exact (List.append_nil _).symm
  | drop c n _ => exact (List.append_nil _).symm
  | note tag e hdoing => rw [coming, hdoing]; exact (List.append_nil _).symm
  | flush e hdoing => rw [coming, hdoing]; exact (List.append_nil _).symm
  | send job e hdoing =>
    rw [coming, hdoing]
    change Act.send job :: Job.acts (job ++ e.rest) = Job.acts (.send job :: e.rest) ++ []
    rw [List.append_nil, Job.acts_send]
  | issue a c e hdoing hc =>
    rw [coming, hdoing]
    cases a <;> cases hc <;> exact (List.append_nil _).symm
  | fail rest ticket hdoing => rw [coming, hdoing]; rfl
  | fault rest hdoing => rw [coming, hdoing]; rfl
  | complete o served hdoing => rw [coming, hdoing]; rfl
  | start job ticket rest hdoing _ =>
    rw [coming, hdoing]
    exact (List.append_nil _).symm
  | accept delay job rest hdoing _ => rw [coming, hdoing]; rfl
  | stop rest hdoing _ => rw [coming, hdoing]; rfl
  | fire n t hdoing _ _ =>
    rw [coming, hdoing]
    exact (List.append_nil _).symm

theorem issued_by_acts (moves : List Move) :
    (run moves).issued = (run moves).acts.filterMap Act.command? := by
  refine run_induction (P := fun x => x.issued = x.acts.filterMap Act.command?) rfl ?_ moves
  intro x new l d hx hway
  suffices h : new.filterMap Report.issued?
      = (new.filterMap Report.act?).filterMap Act.command? by
    simp only [issued, acts, List.filterMap_append] at hx h ⊢
    rw [h, hx]
  cases hway with
  | issue a c e _ hc =>
    change [c] = [a].filterMap Act.command?
    rw [List.filterMap_cons_some hc, List.filterMap_nil]
  | _ => rfl

/-! ## Timers -/

/-- Every timer that was accepted has fired, is pending or was lost when the loop ended, and none
of them is more than one of these. -/
theorem timers_accounted (moves : List Move) :
    ∃ lost, ((run moves).fired ++ ((run moves).loop.timers ++ lost)).Perm (run moves).accepted := by
  refine run_induction
    (P := fun x => ∃ lost, (x.fired ++ (x.loop.timers ++ lost)).Perm x.accepted)
    ⟨[], .refl _⟩ ?_ moves
  rintro x new l d ⟨lost, hx⟩ hway
  have hfired : (Thread.mk l d (x.log ++ new)).fired = x.fired ++ new.filterMap Report.fired? :=
    List.filterMap_append
  have haccepted :
      (Thread.mk l d (x.log ++ new)).accepted = x.accepted ++ new.filterMap Report.accepted? :=
    List.filterMap_append
  have hsame : new.filterMap Report.fired? = [] → new.filterMap Report.accepted? = [] →
      l.timers = x.loop.timers → ∃ lost,
        ((Thread.mk l d (x.log ++ new)).fired ++ (l.timers ++ lost)).Perm
          (Thread.mk l d (x.log ++ new)).accepted := by
    intro hnofired hnoaccepted htimers
    rw [hfired, haccepted, hnofired, hnoaccepted, htimers, List.append_nil, List.append_nil]
    exact ⟨lost, hx⟩
  -- When the loop ends, all that is pending is lost.
  have hlose : new.filterMap Report.fired? = [] → new.filterMap Report.accepted? = [] →
      l.timers = [] → ∃ lost,
        ((Thread.mk l d (x.log ++ new)).fired ++ (l.timers ++ lost)).Perm
          (Thread.mk l d (x.log ++ new)).accepted := by
    intro hnofired hnoaccepted htimers
    rw [hfired, haccepted, hnofired, hnoaccepted, htimers, List.append_nil, List.append_nil]
    exact ⟨x.loop.timers ++ lost, hx⟩
  cases hway with
  | fail rest ticket _ => exact hlose rfl rfl rfl
  | stop rest _ _ => exact hlose rfl rfl rfl
  | accept delay job rest _ _ =>
    refine ⟨lost, ?_⟩
    rw [hfired, haccepted]
    let t : Timer Job := ⟨x.loop.clock + delay, job⟩
    have hmore : (x.loop.timers ++ [t] ++ lost).Perm (x.loop.timers ++ lost ++ [t]) := by
      rw [List.append_assoc, List.append_assoc]
      exact List.perm_append_comm.append_left x.loop.timers
    have hall := hmore.append_left x.fired
    rw [← List.append_assoc x.fired (x.loop.timers ++ lost)] at hall
    change (x.fired ++ [] ++ (x.loop.timers ++ [t] ++ lost)).Perm (x.accepted ++ [t])
    rw [List.append_nil]
    exact hall.trans (hx.append_right [t])
  | fire n t _ ht _ =>
    refine ⟨lost, ?_⟩
    rw [hfired, haccepted]
    obtain ⟨hn, rfl⟩ := List.getElem?_eq_some_iff.mp ht
    have hback : (x.loop.timers[n] :: x.loop.timers.eraseIdx n ++ lost).Perm
        (x.loop.timers ++ lost) := (List.getElem_cons_eraseIdx_perm hn).append_right lost
    have hall := (hback.append_left x.fired).trans hx
    change (x.fired ++ [x.loop.timers[n]] ++ (x.loop.timers.eraseIdx n ++ lost)).Perm
      (x.accepted ++ [])
    rw [List.append_nil, List.append_assoc]
    exact hall
  | _ => exact hsame rfl rfl rfl

theorem fired_when_due (moves : List Move) :
    ∀ t clock, .fired t clock ∈ (run moves).log → t.due ≤ clock := by
  refine run_induction (P := fun x => ∀ t clock, .fired t clock ∈ x.log → t.due ≤ clock)
    (by simp) ?_ moves
  intro x new l d hx hway t clock hmem
  rcases List.mem_append.mp hmem with hold | hnew
  · exact hx t clock hold
  · cases hway with
    | fire n u _ _ hdue =>
      cases List.mem_singleton.mp hnew
      exact hdue
    | _ => simp at hnew

/-! ## Calls from outside -/

theorem brought_turn (h : x.Alive) :
    (x.turn?.getD x).log.filterMap Report.brought? = x.log.filterMap Report.brought? := by
  have hadd : ∀ new : List Report, new.filterMap Report.brought? = [] →
      (x.log ++ new).filterMap Report.brought? = x.log.filterMap Report.brought? := by
    intro new hnew
    rw [List.filterMap_append, hnew, List.append_nil]
  unfold turn?
  split
  · rename_i a rest o hdoing
    have hissue : ∀ c, ((Thread.mk x.loop (some ⟨rest, o⟩) (x.log ++ [.did a])).line c true).log
        = x.log ++ [.did a, .lined c true] := by
      intro c
      simp [Thread.line, h _ hdoing]
    cases a with
    | note tag => exact hadd [.did (.note tag)] rfl
    | flush => exact hadd [.did .flush] rfl
    | send job => exact hadd [.did (.send job)] rfl
    | post job => exact (congrArg _ (hissue _)).trans (hadd [_, _] rfl)
    | timer delay job => exact (congrArg _ (hissue _)).trans (hadd [_, _] rfl)
    | stop => exact (congrArg _ (hissue _)).trans (hadd [_, _] rfl)
    | crash =>
      cases o with
      | timer => exact hadd [.did .crash] rfl
      | queue ticket =>
        have hlog : (x.perform .crash ⟨rest, .queue ticket⟩).log = x.log ++ [.did .crash, .ended] :=
          List.append_assoc ..
        exact (congrArg _ hlog).trans (hadd [_, _] rfl)
  · rename_i o _
    cases o <;> rfl
  · split
    · rfl
    · rename_i c rest _
      cases c with
      | stop =>
        have hlog : (x.take .stop rest).log = x.log ++ [.took .stop x.loop.clock, .ended] :=
          List.append_assoc ..
        exact (congrArg _ hlog).trans (hadd [_, _] rfl)
      | run job ticket => exact hadd [.took (.run job ticket) x.loop.clock] rfl
      | timer delay job => exact hadd [.took (.timer delay job) x.loop.clock] rfl

theorem brought_move (h : x.Alive) (m : Move) :
    (x.move m).log.filterMap Report.brought?
      = x.log.filterMap Report.brought? ++ m.command?.toList := by
  have hline : ∀ (l : Loop) (c : Command),
      ((Thread.mk l x.doing x.log).line c false).log.filterMap Report.brought?
        = x.log.filterMap Report.brought? ++ [c.bare] := by
    intro l c
    simp only [Thread.line, List.filterMap_append]
    split <;> rfl
  cases m with
  | post job => exact hline x.loop (.run job none)
  | send job => exact hline _ (.run job (some x.loop.nextTicket))
  | timer delay job => exact hline x.loop (.timer delay job)
  | stop => exact hline x.loop .stop
  | elapse time => exact (List.append_nil _).symm
  | turn => exact (brought_turn h).trans (List.append_nil _).symm
  | fire n =>
    refine Eq.trans ?_ (List.append_nil _).symm
    simp only [move, fire?]
    split
    · split
      · exact List.filterMap_append.trans (List.append_nil _)
      · rfl
    · rfl

/-- What is put in line from outside or is dropped is what was called, in this order. -/
theorem brought_by_calls (moves : List Move) :
    (run moves).log.filterMap Report.brought? = moves.filterMap Move.command? := by
  induction moves using List.reverseRecOn with
  | nil => rfl
  | append_singleton moves m ih =>
    rw [run_concat, brought_move (alive_run moves), ih, List.filterMap_append]
    cases m <;> rfl

/-- Whatever calls come from outside, from jobs and from timers, to any depth and at any time:

* In line stands what was called from outside or by an act, and of this the loop comes to what is
in front, in order and up to the first command that is a stop or whose job crashes. It comes to all
of that, for by its own turns the thread comes to rest.
* The acts performed are those of the jobs begun, each job in a row and with the jobs that it sends
in the place of the call.
* A timer fires at most once for each time that one was accepted, when it is due. One that crashes
changes nothing about the loop.
* The loop ends with a stop or a job of the line that crashes, and afterwards does nothing. -/
theorem executes_line (moves : List Move) :
    let x := run moves
    x.log.filterMap Report.brought? = moves.filterMap Move.command? ∧
    x.issued = x.acts.filterMap Act.command? ∧
    x.taken <+: upTo Command.ends x.lined ∧
    (x.turn? = none → x.taken = upTo Command.ends x.lined) ∧
    (∃ y, Leads x y ∧ y.turn? = none ∧ (x.doing = none → y.loop = x.loop.drain)) ∧
    (x.doing = none → ∃ y, Comes x y ∧ y.doing = none ∧ y.loop = x.loop.exhaust) ∧
    x.acts ++ x.coming = x.begun.flatMap Job.acts ∧
    x.fired.Subperm x.accepted ∧
    (∀ t clock, .fired t clock ∈ x.log → t.due ≤ clock) ∧
    (∀ rest, x.doing = some ⟨.crash :: rest, .timer⟩ → (x.move .turn).loop = x.loop) ∧
    (.ended ∈ x.log ↔ x.loop.running = false) ∧
    (∀ before after, x.log = before ++ .ended :: after →
      (∃ c, (before.filterMap Report.taken?).getLast? = some c ∧ c.ends = true) ∧
        ∀ r ∈ after, ∃ c, r = .dropped c) := by
  intro x
  have honce : x.fired.Subperm x.accepted := by
    obtain ⟨lost, hperm⟩ := timers_accounted moves
    exact (List.sublist_append_left _ _).subperm.trans hperm.subperm
  have hfault : ∀ rest, x.doing = some ⟨.crash :: rest, .timer⟩ →
      (x.move .turn).loop = x.loop := by
    intro rest hdoing
    simp only [move, turn?, hdoing, Option.getD_some]
    rfl
  exact ⟨brought_by_calls moves, issued_by_acts moves, taken_prefix moves, taken_at_rest,
    comes_to_rest x, comes_exhaust, acts_in_a_row moves, honce, fired_when_due moves, hfault,
    ended_iff moves, fun _ _ => ended_last⟩

end Thread
end MediaRelay
