import MediaRelay.Proofs.Schedule.Stopping

/-! # What those who send a job are told

Who sends a job from outside waits until the thread is done with it: it has served the ticket, or
the loop has ended without doing so and drops the ticket with all that is left. So the answer is
success just when the job was executed to its end. A job that is sent from the thread itself is in
nobody's queue: its acts come before all else, and the caller goes on behind the call unless one of
them crashes.
-/
namespace MediaRelay
namespace Thread

/-- The tickets whose jobs the thread has in hand or in the queue. -/
def waiting (x : Thread) : List Nat :=
  (x.doing.bind Execution.ticket?).toList ++ x.loop.queue.filterMap Command.ticket?

/-- What the caller with a ticket is told. A job that is neither served nor waited for any more has
been given up. -/
def answer? (x : Thread) (ticket : Nat) : Option Bool :=
  if ticket ∈ x.loop.served then some true
  else if ticket ∈ x.waiting then none
  else some false

variable {x : Thread}

/-! ## Answers -/

/-- The thread has executed the job with a ticket to its end. -/
def Completed (x : Thread) (job : Job) (ticket : Nat) : Prop :=
  job.crashes = false ∧ (∀ left, x.doing ≠ some ⟨left, .queue (some ticket)⟩) ∧
    ∃ before clock after, x.log = before ++ .took (.run job (some ticket)) clock :: after ∧
      spreadOf job <+: after.filterMap Report.act?

/-- The job with a ticket has crashed, and the loop has ended with it. -/
def Crashed (x : Thread) (job : Job) (ticket : Nat) : Prop :=
  job.crashes = true ∧ x.loop.running = false ∧
    ∃ before clock after, x.log = before ++ .took (.run job (some ticket)) clock :: after ∧
      after.filterMap Report.act? = Job.acts job

def Unrun (x : Thread) (ticket : Nat) : Prop :=
  ∀ job clock, .took (.run job (some ticket)) clock ∉ x.log

theorem mem_taken_iff {c : Command} : c ∈ x.taken ↔ ∃ clock, .took c clock ∈ x.log := by
  rw [taken, List.mem_filterMap]
  constructor
  · rintro ⟨r, hr, hc⟩
    cases r with
    | took c' clock =>
      cases hc
      exact ⟨clock, hr⟩
    | _ => cases hc
  · rintro ⟨clock, hr⟩
    exact ⟨_, hr, rfl⟩

theorem ticket_of_doing {left : Job} {ticket : Nat}
    (h : x.doing = some ⟨left, .queue (some ticket)⟩) :
    x.doing.bind Execution.ticket? = some ticket := by
  rw [h]
  rfl

theorem exists_doing {ticket : Nat} (h : x.doing.bind Execution.ticket? = some ticket) :
    ∃ left, x.doing = some ⟨left, .queue (some ticket)⟩ := by
  obtain ⟨⟨left, o⟩, hdoing, ho⟩ := Option.bind_eq_some_iff.mp h
  cases o with
  | queue t =>
    cases ho
    exact ⟨left, hdoing⟩
  | timer => cases ho

theorem waiting_of_over (h : x.Over) : x.waiting = [] := by
  rw [waiting, h.doing, h.queue]
  rfl

theorem over_of_stopped {moves : List Move} (h : (run moves).loop.running = false) :
    (run moves).Over := by
  rcases underway_or_over moves with hunderway | hover
  · exact absurd (hunderway.running.symm.trans h) (by simp)
  · exact hover

theorem answer?_eq_true {ticket : Nat} : x.answer? ticket = some true ↔ ticket ∈ x.loop.served := by
  unfold answer?
  split
  · rename_i h
    simp [h]
  · rename_i h
    split <;> simp [h]

theorem answer?_eq_false {ticket : Nat} :
    x.answer? ticket = some false ↔ ticket ∉ x.loop.served ∧ ticket ∉ x.waiting := by
  unfold answer?
  split
  · rename_i h
    simp [h]
  · rename_i h
    split
    · rename_i hw
      simp [hw]
    · rename_i hw
      simp [h, hw]

theorem taken_of_served {moves : List Move} {ticket : Nat}
    (h : ticket ∈ (run moves).loop.served) :
    ∃ job, .run job (some ticket) ∈ (run moves).taken := by
  cases hrunning : (run moves).loop.running with
  | true =>
    refine mem_tickets_iff.mp ?_
    rw [(accounted_run moves).running hrunning]
    exact List.mem_append_left _ h
  | false =>
    obtain ⟨front, c, htaken, hserved⟩ := (accounted_run moves).stopped hrunning
    rw [← hserved] at h
    obtain ⟨job, hjob⟩ := mem_tickets_iff.mp h
    rw [htaken]
    exact ⟨job, List.mem_append_left _ hjob⟩

section
variable {moves : List Move} {job : Job} {ticket : Nat}
variable (hsent : (moves.filterMap Move.sent?)[ticket]? = some job)

include hsent in
theorem job_of_taken {other : Job} (h : .run other (some ticket) ∈ (run moves).taken) :
    other = job :=
  job_of_ticket (asked_of_lined ((taken_prefix_lined moves).subset h)) (mem_asked_iff.mpr hsent)

include hsent in
theorem answer_true_iff :
    (run moves).answer? ticket = some true ↔ (run moves).Completed job ticket := by
  rw [answer?_eq_true]
  constructor
  · intro hserved
    obtain ⟨other, htaken⟩ := taken_of_served hserved
    cases job_of_taken hsent htaken
    obtain ⟨hcrashes, hdoing⟩ := (served_iff htaken).mp hserved
    have hnot : ∀ left, (run moves).doing ≠ some ⟨left, .queue (some ticket)⟩ :=
      fun left hleft => hdoing (ticket_of_doing hleft)
    obtain ⟨clock, hmem⟩ := mem_taken_iff.mp htaken
    obtain ⟨before, after, hlog⟩ := List.append_of_mem hmem
    rcases traced_run moves before _ _ clock after hlog with
      ⟨left, hleft, _⟩ | ⟨_, hall⟩ | ⟨hcrash, _⟩
    · exact absurd hleft (hnot left)
    · exact ⟨hcrashes, hnot, before, clock, after, hlog, hall⟩
    · exact absurd (hcrashes.symm.trans hcrash) (by simp)
  · rintro ⟨hcrashes, hdoing, before, clock, after, hlog, _⟩
    have htaken : .run job (some ticket) ∈ (run moves).taken :=
      mem_taken_iff.mpr ⟨clock, by simp [hlog]⟩
    refine (served_iff htaken).mpr ⟨hcrashes, fun hd => ?_⟩
    obtain ⟨left, hleft⟩ := exists_doing hd
    exact hdoing left hleft

include hsent in
theorem stopped_of_unrun (htaken : .run job (some ticket) ∉ (run moves).taken)
    (hwaiting : ticket ∉ (run moves).waiting) : (run moves).loop.running = false := by
  obtain ⟨r, hr, hasked⟩ := List.mem_filterMap.mp (mem_asked_iff.mpr hsent)
  cases r with
  | lined c inside =>
    cases Command.asked?_eq_some.mp hasked
    have hlined : .run job (some ticket) ∈ (run moves).lined :=
      List.mem_filterMap.mpr ⟨_, hr, rfl⟩
    rcases underway_or_over moves with hunderway | hover
    · rw [hunderway.line] at hlined
      rcases List.mem_append.mp hlined with hin | hin
      · exact absurd hin htaken
      · exact absurd (List.mem_append_right _ (mem_tickets_iff.mpr ⟨job, hin⟩)) hwaiting
    · exact hover.running
  | dropped c => exact running_of_dropped moves c hr
  | _ => cases hasked

include hsent in
theorem answer_false_iff :
    (run moves).answer? ticket = some false ↔ (run moves).Crashed job ticket ∨
      ((run moves).Unrun ticket ∧ (run moves).loop.running = false) := by
  rw [answer?_eq_false]
  constructor
  · rintro ⟨hserved, hwaiting⟩
    have hdoing : (run moves).doing.bind Execution.ticket? ≠ some ticket := by
      intro hd
      refine hwaiting (List.mem_append_left _ ?_)
      rw [hd]
      exact List.mem_singleton_self _
    by_cases htaken : .run job (some ticket) ∈ (run moves).taken
    · left
      obtain ⟨clock, hmem⟩ := mem_taken_iff.mp htaken
      obtain ⟨before, after, hlog⟩ := List.append_of_mem hmem
      rcases traced_run moves before _ _ clock after hlog with
        ⟨left, hleft, _⟩ | ⟨hcrashes, _⟩ | ⟨hcrashes, hdone, hstopped⟩
      · exact absurd (ticket_of_doing hleft) hdoing
      · exact absurd ((served_iff htaken).mpr ⟨hcrashes, hdoing⟩) hserved
      · exact ⟨hcrashes, hstopped, before, clock, after, hlog, hdone⟩
    · refine Or.inr ⟨?_, stopped_of_unrun hsent htaken hwaiting⟩
      intro other clock hmem
      have hother := mem_taken_iff.mpr ⟨clock, hmem⟩
      exact htaken (job_of_taken hsent hother ▸ hother)
  · intro h
    have hstopped : (run moves).loop.running = false :=
      h.elim (fun hcrashed => hcrashed.2.1) And.right
    refine ⟨fun hserved => ?_, by simp [waiting_of_over (over_of_stopped hstopped)]⟩
    obtain ⟨other, htaken⟩ := taken_of_served hserved
    rcases h with ⟨hcrashes, _⟩ | ⟨hunrun, _⟩
    · cases job_of_taken hsent htaken
      exact absurd (((served_iff htaken).mp hserved).1.symm.trans hcrashes) (by simp)
    · obtain ⟨clock, hmem⟩ := mem_taken_iff.mp htaken
      exact hunrun other clock hmem

theorem served_more (moves more : List Move) :
    (run moves).loop.served <+: (run (moves ++ more)).loop.served := by
  induction more using List.reverseRecOn with
  | nil => simp
  | append_singleton more m ih =>
    rw [← List.append_assoc, run_concat, served_move]
    exact ih.trans (List.prefix_append _ _)

theorem Unrun.later (h : (run moves).Unrun ticket) (hstopped : (run moves).loop.running = false)
    (more : List Move) : (run (moves ++ more)).Unrun ticket := by
  obtain ⟨_, new, hlog, hdropped⟩ := over_more hstopped more
  intro job clock hmem
  rw [hlog] at hmem
  rcases List.mem_append.mp hmem with hold | hnew
  · exact h job clock hold
  · obtain ⟨c, hc⟩ := hdropped _ hnew
    cases hc

theorem Crashed.later (h : (run moves).Crashed job ticket) (more : List Move) :
    (run (moves ++ more)).Crashed job ticket := by
  obtain ⟨hcrashes, hstopped, before, clock, after, hlog, hdone⟩ := h
  obtain ⟨hlater, new, hnew, hdropped⟩ := over_more hstopped more
  refine ⟨hcrashes, hlater, before, clock, after ++ new, by rw [hnew, hlog]; simp, ?_⟩
  have hnone : new.filterMap Report.act? = [] := by
    rw [List.filterMap_eq_nil_iff]
    intro r hr
    obtain ⟨c, rfl⟩ := hdropped r hr
    rfl
  rw [List.filterMap_append, hnone, List.append_nil]
  exact hdone

include hsent in
/-- An answer is final. -/
theorem answer_later {answer : Bool} (h : (run moves).answer? ticket = some answer)
    (more : List Move) : (run (moves ++ more)).answer? ticket = some answer := by
  cases answer with
  | true => exact answer?_eq_true.mpr ((served_more moves more).subset (answer?_eq_true.mp h))
  | false =>
    have hlater : ((moves ++ more).filterMap Move.sent?)[ticket]? = some job := by
      obtain ⟨hlt, _⟩ := List.getElem?_eq_some_iff.mp hsent
      rw [List.filterMap_append, List.getElem?_append_left hlt, hsent]
    rcases (answer_false_iff hsent).mp h with hcrashed | ⟨hunrun, hstopped⟩
    · exact (answer_false_iff hlater).mpr (Or.inl (hcrashed.later more))
    · exact (answer_false_iff hlater).mpr
        (Or.inr ⟨hunrun.later hstopped more, (over_more hstopped more).1⟩)

theorem answer_at_rest (h : x.turn? = none) : x.answer? ticket ≠ none := by
  have hidle := idle_of_rest h
  have hnobody : x.waiting = [] := by
    rw [waiting, hidle.1, hidle.2]
    rfl
  unfold answer?
  rw [hnobody]
  split
  · simp
  · simp

end

/-! ## Jobs sent on the spot -/

theorem acts_line (x : Thread) (c : Command) (inside : Bool) :
    (x.line c inside).acts = x.acts := by
  simp only [acts, Thread.line, List.filterMap_append]
  split <;> exact List.append_nil _

theorem move_of_other {m : Move} (hm : m.isTurn = false) {e : Execution}
    (hdoing : x.doing = some e) : (x.move m).doing = some e ∧ (x.move m).acts = x.acts := by
  cases m with
  | post job => exact ⟨hdoing, acts_line _ _ _⟩
  | send job => exact ⟨hdoing, acts_line _ _ _⟩
  | timer delay job => exact ⟨hdoing, acts_line _ _ _⟩
  | stop => exact ⟨hdoing, acts_line _ _ _⟩
  | turn => cases hm
  | fire n =>
    have hnone : x.fire? n = none := by simp only [fire?, hdoing]
    simp only [move, hnone, Option.getD_none]
    exact ⟨hdoing, trivial⟩
  | elapse time => exact ⟨hdoing, rfl⟩

theorem acts_did (x : Thread) (a : Act) (l : Loop) (d : Option Execution) :
    (Thread.mk l d (x.log ++ [.did a])).acts = x.acts ++ [a] :=
  List.filterMap_append

/-- A turn performs the first act that is left, and what that act sends comes next. -/
theorem turn_performs {a : Act} {job rest : Job} {o : Origin}
    (hdoing : x.doing = some ⟨a :: job ++ rest, o⟩) (ha : a.isCrash = false) :
    ∃ left, (x.move .turn).doing = some ⟨left ++ rest, o⟩ ∧ (x.move .turn).acts = x.acts ++ [a] ∧
      spreadOf (a :: job) = a :: spreadOf left := by
  have hturn : x.move .turn = x.perform a ⟨job ++ rest, o⟩ := by
    simp only [move, turn?, hdoing, List.cons_append, Option.getD_some]
  rw [hturn]
  cases a with
  | send sent =>
    refine ⟨sent ++ job, ?_, acts_did x _ _ _, ?_⟩
    · rw [List.append_assoc]
      rfl
    · simp only [spreadOf, Act.spread, List.cons_append, spreadOf_append]
  | note tag => exact ⟨job, rfl, acts_did x _ _ _, rfl⟩
  | flush => exact ⟨job, rfl, acts_did x _ _ _, rfl⟩
  | post posted => exact ⟨job, rfl, (acts_line _ _ _).trans (acts_did x _ _ _), rfl⟩
  | timer delay posted => exact ⟨job, rfl, (acts_line _ _ _).trans (acts_did x _ _ _), rfl⟩
  | stop => exact ⟨job, rfl, (acts_line _ _ _).trans (acts_did x _ _ _), rfl⟩
  | crash => cases ha

/-- With every turn one more act is performed, whatever comes in between. -/
theorem performs (more : List Move) {job rest : Job} {o : Origin}
    (hdoing : x.doing = some ⟨job ++ rest, o⟩)
    (hn : more.countP Move.isTurn ≤ (spreadOf job).length)
    (hc : ∀ a ∈ (spreadOf job).take (more.countP Move.isTurn), a.isCrash = false) :
    ∃ left, (more.foldl move x).doing = some ⟨left ++ rest, o⟩ ∧
      (more.foldl move x).acts = x.acts ++ (spreadOf job).take (more.countP Move.isTurn) ∧
      spreadOf left = (spreadOf job).drop (more.countP Move.isTurn) := by
  induction more generalizing x job with
  | nil => exact ⟨job, hdoing, by simp, rfl⟩
  | cons m more ih =>
    cases hm : m.isTurn with
    | false =>
      obtain ⟨hd, ha⟩ := move_of_other hm hdoing
      rw [List.countP_cons_of_neg (by simp [hm])] at hn hc ⊢
      obtain ⟨left, hleft, hacts, hspread⟩ := ih hd hn hc
      exact ⟨left, hleft, by rw [← ha]; exact hacts, hspread⟩
    | true =>
      rw [List.countP_cons_of_pos hm] at hn hc ⊢
      cases m with
      | turn =>
        cases job with
        | nil => exact absurd hn (by simp [spreadOf])
        | cons a job =>
          have hfirst : a.isCrash = false := by
            refine hc a ?_
            cases a <;> simp [spreadOf, Act.spread]
          obtain ⟨next, hd, ha, hs⟩ := turn_performs hdoing hfirst
          rw [hs] at hn hc ⊢
          simp only [List.length_cons, Nat.add_le_add_iff_right, List.take_succ_cons,
            List.mem_cons, forall_eq_or_imp] at hn hc
          obtain ⟨left, hleft, hacts, hspread⟩ := ih hd hn hc.2
          refine ⟨left, hleft, ?_, hspread⟩
          change (more.foldl move (x.move .turn)).acts = _
          rw [hacts, ha, List.append_assoc]
          rfl
      | _ => cases hm

theorem spreadOf_cons (a : Act) (rest : Job) : ∃ more, spreadOf (a :: rest) = a :: more := by
  cases a <;> exact ⟨_, rfl⟩

theorem spreadOf_send (job : Job) : spreadOf [.send job] = .send job :: spreadOf job := by
  simp [spreadOf, Act.spread]

theorem exists_crash {job : Job} (h : job.crashes = true) :
    ∃ front cut, spreadOf job = front ++ .crash :: cut ∧ Job.acts job = front ++ [.crash] ∧
      ∀ a ∈ front, a.isCrash = false := by
  have hsome : ((spreadOf job).find? Act.isCrash).isSome := by
    rw [List.find?_isSome]
    exact List.any_eq_true.mp h
  obtain ⟨a, ha⟩ := Option.isSome_iff_exists.mp hsome
  obtain ⟨hcrash, front, cut, hspread, hfront⟩ := List.find?_eq_some_iff_append.mp ha
  have hall : ∀ b ∈ front, b.isCrash = false := by simpa using hfront
  cases a with
  | crash =>
    refine ⟨front, cut, hspread, ?_, hall⟩
    rw [Job.acts, hspread, upTo_append_of_none _ hall]
    rfl
  | _ => cases hcrash

/-- The caller of a job that is sent on the spot goes on behind it, once all its acts have been
performed, as soon as the thread has had as many turns. -/
theorem send_returns {job rest : Job} {o : Origin}
    (hdoing : x.doing = some ⟨.send job :: rest, o⟩) (hcrashes : job.crashes = false)
    {more : List Move} (hmore : more.countP Move.isTurn = 1 + (spreadOf job).length) :
    (more.foldl move x).doing = some ⟨rest, o⟩ ∧
      (more.foldl move x).acts = x.acts ++ .send job :: spreadOf job := by
  have hlen : (spreadOf [.send job]).length = more.countP Move.isTurn := by
    rw [spreadOf_send, List.length_cons, hmore, Nat.add_comm]
  have hnone : ∀ a ∈ spreadOf job, a.isCrash = false := by
    simpa [Job.crashes] using hcrashes
  have hall : x.doing = some ⟨[.send job] ++ rest, o⟩ := hdoing
  obtain ⟨left, hleft, hacts, hspread⟩ := performs more hall
    (Nat.le_of_eq hlen.symm) (by
      rw [← hlen, List.take_length, spreadOf_send]
      exact List.forall_mem_cons.mpr ⟨rfl, hnone⟩)
  rw [← hlen, List.take_length, spreadOf_send] at hacts
  rw [← hlen, List.drop_length] at hspread
  cases left with
  | nil => exact ⟨hleft, hacts⟩
  | cons a left =>
    obtain ⟨more, hcons⟩ := spreadOf_cons a left
    exact absurd (hcons.symm.trans hspread) (by simp)

/-- A crash of a job that is sent on the spot takes its caller with it, and the loop too, unless a
timer runs them. -/
theorem send_unwinds {job rest : Job} {o : Origin}
    (hdoing : x.doing = some ⟨.send job :: rest, o⟩) (hcrashes : job.crashes = true)
    {more : List Move} (hmore : more.countP Move.isTurn = (Job.acts job).length) :
    let y := (more.foldl move x).move .turn
    y.doing = none ∧ y.acts = x.acts ++ .send job :: Job.acts job ∧
      (o = .timer → y.loop = (more.foldl move x).loop) ∧
      (o ≠ .timer → y.loop.running = false) := by
  intro y
  obtain ⟨front, cut, hspread, hjob, hfront⟩ := exists_crash hcrashes
  have hcount : more.countP Move.isTurn = (.send job :: front).length := by
    rw [hmore, hjob]
    simp
  have hall : spreadOf [.send job] = (.send job :: front) ++ .crash :: cut := by
    rw [spreadOf_send, hspread]
    rfl
  have hfirst : x.doing = some ⟨[.send job] ++ rest, o⟩ := hdoing
  obtain ⟨left, hleft, hacts, hrest⟩ := performs more hfirst
    (by rw [hall, hcount, List.length_append]; exact Nat.le_add_right _ _) (by
      rw [hall, hcount, List.take_left]
      exact List.forall_mem_cons.mpr ⟨rfl, hfront⟩)
  rw [hall, hcount, List.take_left] at hacts
  rw [hall, hcount, List.drop_left] at hrest
  cases left with
  | nil => cases hrest
  | cons a left =>
    obtain ⟨_, hcons⟩ := spreadOf_cons a left
    cases hcons.symm.trans hrest
    have hturn : y = (more.foldl move x).perform .crash ⟨left ++ rest, o⟩ := by
      simp only [y, move, turn?, hleft, List.cons_append, Option.getD_some]
    have hlog : ∀ (l : Loop) (d : Option Execution) (new : List Report),
        new.filterMap Report.act? = [.crash] →
        (Thread.mk l d ((more.foldl move x).log ++ new)).acts =
          x.acts ++ .send job :: Job.acts job := by
      intro l d new hnew
      rw [acts, List.filterMap_append, hnew, hjob]
      change (more.foldl move x).acts ++ _ = _
      rw [hacts]
      simp
    rw [hturn]
    cases o with
    | timer => exact ⟨rfl, hlog _ _ [.did .crash] rfl, fun _ => rfl, fun hne => absurd rfl hne⟩
    | queue ticket =>
      refine ⟨rfl, ?_, (by simp), fun _ => rfl⟩
      have hended : ((more.foldl move x).perform .crash ⟨left ++ rest, .queue ticket⟩).log =
          (more.foldl move x).log ++ [.did .crash, .ended] := List.append_assoc ..
      rw [acts, hended]
      exact hlog {} none [.did .crash, .ended] rfl

/-! ## Calls made while nobody else calls -/

theorem answer_of_rest (h : x.turn? = none) (ticket : Nat) :
    x.answer? ticket = some (x.loop.served.contains ticket) := by
  by_cases hserved : ticket ∈ x.loop.served
  · simp [answer?, hserved]
  · have hidle := idle_of_rest h
    simp [answer?, waiting, hserved, hidle.1, hidle.2]

/-- What the loop answers to a call is what the caller is told by a thread left alone. -/
theorem leads_send (hdoing : x.doing = none) (job : Job) :
    ∃ y, Leads (x.move (.send job)) y ∧ y.turn? = none ∧ y.loop = (x.loop.send job).1 ∧
      y.answer? x.loop.nextTicket = some (x.loop.send job).2 := by
  obtain ⟨y, hy, hrest, hloop⟩ := leads_drain (x := x.move (.send job)) hdoing
  refine ⟨y, hy, hrest, hloop, ?_⟩
  rw [answer_of_rest hrest, hloop]
  rfl

theorem unrun_of_later {moves more : List Move} (h : (run moves).loop.running = false)
    {ticket : Nat} (hlate : (moves.filterMap Move.sent?).length ≤ ticket) :
    (run (moves ++ more)).Unrun ticket := by
  refine Unrun.later ?_ h more
  intro job clock hmem
  have htaken := mem_taken_iff.mpr ⟨clock, hmem⟩
  have hasked := asked_of_lined ((taken_prefix_lined moves).subset htaken)
  obtain ⟨hlt, _⟩ := List.getElem?_eq_some_iff.mp (mem_asked_iff.mp hasked)
  omega

end Thread

namespace Stopping

/-- The jobs sent from outside, in the order of the calls. -/
def sent (events : List Event) : List Job :=
  (events.filterMap Event.move?).filterMap Thread.Move.sent?

def turns (events : List Event) : Nat :=
  (events.filterMap Event.move?).countP Thread.Move.isTurn

/-- Whatever calls come from outside, from jobs and from timers, to any depth and at any time:

* A job sent from outside is answered with success just when the thread has executed it to its end,
and with failure just when it has crashed the loop, or the loop has ended without coming to it, and
then it never will. An answer is final; every caller has one once the thread is at rest, and by its
own turns the thread comes there. With nobody else calling this is what the loop answers.
* A job sent from the thread is executed on the spot, whatever stands in the queue. Its caller goes
on behind it, unless it crashes: then nothing that is left is performed, and with a job of the queue
the loop ends, while one of a timer leaves it as it is.
* Once a stop has been called for from outside, the thread comes to its end by its own turns, and
whoever has called can come back from the call. An idle thread that nobody else calls is then what
`Loop.stop` makes of it.
* Once a call of `stop` has come back the loop has ended. From its end on nothing is begun or
performed and no timer fires, and every job sent is answered with failure, unexecuted. -/
theorem send_tells_the_outcome (events : List Event) :
    let s := run events
    let x := s.thread
    let later := fun more => (run (events ++ more)).thread
    (∀ ticket job, (sent events)[ticket]? = some job →
      (x.answer? ticket = some true ↔ x.Completed job ticket) ∧
      (x.answer? ticket = some false ↔
        x.Crashed job ticket ∨ (x.Unrun ticket ∧ x.loop.running = false)) ∧
      (x.Unrun ticket → x.loop.running = false → ∀ more, (later more).Unrun ticket) ∧
      (∀ answer, x.answer? ticket = some answer →
        ∀ more, (later more).answer? ticket = some answer) ∧
      (x.turn? = none → x.answer? ticket ≠ none)) ∧
    (∃ y, Thread.Leads x y ∧ y.turn? = none) ∧
    (x.doing = none → ∀ job, ∃ y, Thread.Leads (x.move (.send job)) y ∧ y.turn? = none ∧
      y.loop = (x.loop.send job).1 ∧ y.answer? x.loop.nextTicket = some (x.loop.send job).2) ∧
    (∀ job rest o, x.doing = some ⟨.send job :: rest, o⟩ →
      (Job.crashes job = false → ∀ more, turns more = 1 + (spreadOf job).length →
        (later more).doing = some ⟨rest, o⟩ ∧
          (later more).acts = x.acts ++ .send job :: spreadOf job) ∧
      (Job.crashes job = true → ∀ more, turns more = (Job.acts job).length →
        let y := (later more).move .turn
        y.doing = none ∧ y.acts = x.acts ++ .send job :: Job.acts job ∧
          (o = .timer → y.loop = (later more).loop) ∧
          (o ≠ .timer → y.loop.running = false))) ∧
    (s.calls ≠ [] → ∃ y, Thread.Leads x y ∧ y.loop.running = false) ∧
    (∀ n < s.calls.length, ∃ more, (∀ e ∈ more, e.goesOn = true) ∧
      (run (events ++ more)).calls[n]? = some .returned) ∧
    (x.doing = none → ∃ more, (∀ e ∈ more, e.goesOn = true) ∧
      let t := run (events ++ .move .stop :: more)
      t.thread.loop = x.loop.stop ∧ t.calls[s.calls.length]? = some .returned) ∧
    (.returned ∈ s.calls → x.loop.running = false) ∧
    (x.loop.running = false → ∀ more, let y := later more
      y.acts = x.acts ∧ y.begun = x.begun ∧ y.fired = x.fired ∧
      ∀ ticket job, (sent (events ++ more))[ticket]? = some job →
        (sent events).length ≤ ticket → y.answer? ticket = some false ∧ y.Unrun ticket) := by
  intro s x later
  let moves := events.filterMap Event.move?
  have hx : x = Thread.run moves := thread_run events
  have hlater : ∀ more, later more = Thread.run (moves ++ more.filterMap Event.move?) := by
    intro more
    rw [← List.filterMap_append]
    exact thread_run (events ++ more)
  have hfold : ∀ more, later more = (more.filterMap Event.move?).foldl Thread.move x := by
    intro more
    rw [hlater, hx, Thread.run, List.foldl_append]
    rfl
  have hsent : ∀ more, sent (events ++ more) =
      (moves ++ more.filterMap Event.move?).filterMap Thread.Move.sent? := by
    intro more
    rw [sent, List.filterMap_append]
  refine ⟨?_, ?_, fun hdoing job => Thread.leads_send hdoing job, ?_, fun hcalled => ?_,
    fun n hn => exists_return hn, exists_stop, (settled_run events).returned, ?_⟩
  · intro ticket job hsent
    rw [hx]
    refine ⟨Thread.answer_true_iff hsent, Thread.answer_false_iff hsent,
      fun hunrun hstopped more => ?_, fun answer h more => ?_, Thread.answer_at_rest⟩
    · rw [hlater]
      exact hunrun.later hstopped _
    · rw [hlater]
      exact Thread.answer_later hsent h _
  · obtain ⟨y, hy, hrest, _⟩ := Thread.comes_to_rest x
    exact ⟨y, hy, hrest⟩
  · intro job rest o hdoing
    constructor
    · intro hcrashes more hmore
      rw [hfold more]
      exact Thread.send_returns hdoing hcrashes hmore
    · intro hcrashes more hmore
      rw [hfold more]
      exact Thread.send_unwinds hdoing hcrashes hmore
  · rw [hx]
    exact Thread.leads_stopped (stop_of_called hcalled)
  · intro hstopped more y
    have hover : (Thread.run moves).loop.running = false := by rw [← hx, hstopped]
    obtain ⟨hacts, hbegun, hfired⟩ :=
      Thread.nothing_after_end hover (more.filterMap Event.move?)
    rw [← hlater, ← hx] at hacts hbegun hfired
    refine ⟨hacts, hbegun, hfired, ?_⟩
    intro ticket job hjob hlate
    rw [hsent] at hjob
    have hunrun : y.Unrun ticket := by
      simp only [y, hlater]
      exact Thread.unrun_of_later hover hlate
    refine ⟨?_, hunrun⟩
    simp only [y, hlater] at hunrun ⊢
    exact (Thread.answer_false_iff hjob).mpr
      (Or.inr ⟨hunrun, (Thread.over_more hover (more.filterMap Event.move?)).1⟩)

-- Two callers stop a thread in the middle of a job: the second waits for the lock, and neither
-- comes back before the job has ended.
example :
    let early := [.post [.note "last"], .turn, .stop, .stop].map Event.move ++
      [.lock 0, .lock 1, .join 0, .lock 1]
    (run early).calls = [.joining, .asked] ∧
      (run (early ++ [.move .turn, .move .turn, .move .turn, .join 0, .lock 1])).calls =
        [.returned, .returned] := by
  decide +kernel

end Stopping
end MediaRelay
