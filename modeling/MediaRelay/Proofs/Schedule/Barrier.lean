import MediaRelay.Proofs.Schedule.Answers

/-! # What a flush waits for

A flush from outside is the sending of a job without acts. It stands in line behind all that was put
there before, so when it is answered with success, the jobs ahead of it have been executed to their
ends. On the loop's own thread there is nothing to wait for: a flush returns at once, and the jobs
in the queue are still to come.
-/
namespace MediaRelay

theorem List.split_of_filterMap {α β : Type} {f : α → Option β} {xs : List α} {n : Nat} {b : β}
    (h : (xs.filterMap f)[n]? = some b) :
    ∃ before a after, xs = before ++ a :: after ∧ (before.filterMap f).length = n ∧
      f a = some b := by
  obtain ⟨hn, hb⟩ := List.getElem?_eq_some_iff.mp h
  have hcut : xs.filterMap f = (xs.filterMap f).take n ++ b :: (xs.filterMap f).drop (n + 1) := by
    rw [← hb, ← List.drop_eq_getElem_cons hn, List.take_append_drop]
  obtain ⟨front, back, rfl, hfront, hback⟩ := List.filterMap_eq_append_iff.mp hcut
  obtain ⟨skipped, a, after, rfl, hskipped, ha, -⟩ := List.filterMap_eq_cons_iff.mp hback
  refine ⟨front ++ skipped, a, after, by rw [List.append_assoc], ?_, ha⟩
  rw [List.filterMap_append, List.filterMap_eq_nil_iff.mpr hskipped, List.append_nil, hfront,
    List.length_take, Nat.min_eq_left (Nat.le_of_lt hn)]

namespace Thread

/-- What a call brings, whether it is put in line or dropped. -/
def Report.called? : Report → Option Command
  | .lined c _ => some c
  | .dropped c => some c
  | _ => none

/-- The commands of all calls so far, from outside and from jobs. -/
def called (x : Thread) : List Command := x.log.filterMap Report.called?

/-- The thread has come to the job at this place in line, and has performed all its acts since. -/
def HasRun (x : Thread) (n : Nat) (job : Job) : Prop :=
  job.crashes = false ∧ ∃ before ticket clock after,
    x.log = before ++ .took (.run job ticket) clock :: after ∧
      (before.filterMap Report.taken?).length = n ∧ spreadOf job <+: after.filterMap Report.act?

/-- The job at this place in line is being executed. -/
def InHand (x : Thread) (n : Nat) : Prop :=
  n + 1 = x.taken.length ∧ ∃ left ticket, x.doing = some ⟨left, .queue ticket⟩

variable {x : Thread} {n : Nat} {job : Job} {ticket : Option Nat}

theorem HasRun.lt (h : x.HasRun n job) : n < x.taken.length := by
  obtain ⟨-, before, ticket, clock, after, hlog, hlength, -⟩ := h
  rw [taken, hlog, List.filterMap_append, List.length_append, hlength]
  exact Nat.lt_add_of_pos_right (Nat.succ_pos _)

theorem split_of_taken {log : List Report} {c : Command}
    (h : (log.filterMap Report.taken?)[n]? = some c) :
    ∃ before clock after, log = before ++ .took c clock :: after ∧
      (before.filterMap Report.taken?).length = n := by
  obtain ⟨before, r, after, hlog, hlength, hr⟩ := List.split_of_filterMap h
  cases r with
  | took c' clock =>
    cases hr
    exact ⟨before, clock, after, hlog, hlength⟩
  | _ => cases hr

/-! ## One job after another -/

/-- Where a command is taken, a job that was taken before has been executed to its end. -/
def InTurn (x : Thread) : Prop := ∀ before job ticket clock mid c clock' after,
  x.log = before ++ .took (.run job ticket) clock :: mid ++ .took c clock' :: after →
    Job.crashes job = false ∧ spreadOf job <+: mid.filterMap Report.act?

theorem Way.idle_of_took {new : List Report} {l : Loop} {d : Option Execution}
    (hway : Way x new l d) (hx : x.Underway ∨ x.Over) {mid after : List Report} {c : Command}
    {clock : Nat} (hnew : new = mid ++ .took c clock :: after) :
    mid = [] ∧ x.doing = none ∧ x.loop.running = true := by
  have hmem : Report.took c clock ∈ new := by simp [hnew]
  have hfirst : ∀ {r : Report} {rest : List Report}, r :: rest = mid ++ .took c clock :: after →
      Report.took c clock ∉ rest → mid = [] := by
    intro r rest heq hnot
    cases mid with
    | nil => rfl
    | cons m more =>
      obtain ⟨-, rfl⟩ := List.cons.inj heq
      exact absurd (List.mem_append_right _ List.mem_cons_self) hnot
  cases hway with
  | start job ticket rest hdoing hqueue =>
    exact ⟨hfirst hnew (by simp), hdoing, running_of_queue hx hqueue⟩
  | accept delay job rest hdoing hqueue =>
    exact ⟨hfirst hnew (by simp), hdoing, running_of_queue hx hqueue⟩
  | stop rest hdoing hqueue =>
    exact ⟨hfirst hnew (by simp), hdoing, running_of_queue hx hqueue⟩
  | _ => simp at hmem

theorem InTurn.goes (h : x.InTurn) {new : List Report} {l : Loop} {d : Option Execution}
    (hway : Way x new l d) (hx : x.Underway ∨ x.Over) (htraced : x.Traced) :
    InTurn ⟨l, d, x.log ++ new⟩ := by
  intro before job ticket clock mid c clock' after hlog
  rcases entry_of_append hlog with ⟨rest, hold, rfl⟩ | ⟨more, hbefore, hnew⟩
  · exact h before job ticket clock mid c clock' rest hold
  · -- The later command is taken just now, by a thread that is idle.
    obtain ⟨rfl, hidle, hrunning⟩ := hway.idle_of_took hx hnew
    rw [List.append_nil] at hbefore
    rcases htraced before job ticket clock mid hbefore.symm with
      ⟨left, hdoing, _⟩ | ⟨hcrashes, hall⟩ | ⟨_, _, hstopped⟩
    · cases hidle.symm.trans hdoing
    · exact ⟨hcrashes, hall⟩
    · exact absurd (hrunning.symm.trans hstopped) (by simp)

theorem inTurn_run (moves : List Move) : (run moves).InTurn := by
  induction moves using List.reverseRecOn with
  | nil =>
    intro before job ticket clock mid c clock' after h
    exact absurd h.symm (by simp [run])
  | append_singleton moves m ih =>
    obtain ⟨new, hlog, hway⟩ := goes_move (alive_run moves) m
    have hnext := ih.goes hway (underway_or_over moves) (traced_run moves)
    rw [← hlog] at hnext
    rw [run_concat]
    exact hnext

theorem hasRun_of_next {moves : List Move} (h : (run moves).taken[n]? = some (.run job ticket))
    (hnext : n + 1 < (run moves).taken.length) : (run moves).HasRun n job := by
  obtain ⟨front, clock', after, hlog, hlength⟩ := split_of_taken (List.getElem?_eq_getElem hnext)
  have hfront : (front.filterMap Report.taken?)[n]? = some (.run job ticket) := by
    rw [taken, hlog, List.filterMap_append, List.getElem?_append_left (by omega)] at h
    exact h
  obtain ⟨before, clock, mid, rfl, hplace⟩ := split_of_taken hfront
  obtain ⟨hcrashes, hall⟩ := inTurn_run moves before job ticket clock mid _ clock' after hlog
  refine ⟨hcrashes, before, ticket, clock, mid ++ .took (run moves).taken[n + 1] clock' :: after,
    ?_, hplace, ?_⟩
  · rw [hlog, List.append_assoc, List.cons_append]
  · rw [List.filterMap_append]
    exact hall.trans (List.prefix_append _ _)

/-- All jobs that a running loop has come to have been executed, apart from the one in hand. -/
theorem hasRun_of_taken {moves : List Move} (hrunning : (run moves).loop.running = true)
    (h : (run moves).taken[n]? = some (.run job ticket)) (hhand : ¬(run moves).InHand n) :
    (run moves).HasRun n job := by
  obtain ⟨hlt, _⟩ := List.getElem?_eq_some_iff.mp h
  rcases Nat.lt_or_eq_of_le hlt with hnext | hlast
  · exact hasRun_of_next h hnext
  · obtain ⟨before, clock, after, hlog, hlength⟩ := split_of_taken h
    rcases traced_run moves before job ticket clock after hlog with
      ⟨left, hdoing, _⟩ | ⟨hcrashes, hall⟩ | ⟨_, _, hstopped⟩
    · exact absurd ⟨hlast, left, ticket, hdoing⟩ hhand
    · exact ⟨hcrashes, before, ticket, clock, after, hlog, hlength, hall⟩
    · exact absurd (hrunning.symm.trans hstopped) (by simp)

theorem not_ends_of_next {moves : List Move} {c : Command} (h : (run moves).taken[n]? = some c)
    (hnext : n + 1 < (run moves).taken.length) : c.ends = false := by
  have hinit : ∀ {front : List Command} {b : Command}, (run moves).taken = front ++ [b] →
      c ∈ front := by
    intro front b htaken
    rw [htaken, List.length_append, List.length_singleton] at hnext
    rw [htaken, List.getElem?_append_left (by omega)] at h
    exact List.mem_of_getElem? h
  rcases underway_or_over moves with hunderway | hover
  · have hclean := hunderway.clean
    cases hjob : (run moves).doing.bind Execution.command? with
    | none =>
      rw [hjob] at hclean
      exact hclean c (List.mem_of_getElem? h)
    | some rest =>
      rw [hjob] at hclean
      obtain ⟨front, b, htaken, hfront, _⟩ := hclean
      exact hfront c (hinit htaken)
  · obtain ⟨front, b, htaken, hfront, _⟩ := hover.last
    exact hfront c (hinit htaken)

/-! ## Calls from outside -/

theorem called_of_running {moves : List Move} (h : (run moves).loop.running = true) :
    (run moves).called = (run moves).lined := by
  refine List.filterMap_congr fun r hr => ?_
  cases r with
  | dropped c => exact absurd ((running_of_dropped moves c hr).symm.trans h) (by simp)
  | _ => rfl

section
variable {earlier : List Move} (later : List Move)

theorem lined_sent (h : (run earlier).loop.running = true) (job : Job) :
    ∃ rest, (run (earlier ++ .send job :: later)).lined =
      (run earlier).lined ++ .run job (some (earlier.filterMap Move.sent?).length) :: rest := by
  have hsent : (run (earlier ++ [.send job])).log = (run earlier).log ++
      [.lined (.run job (some (earlier.filterMap Move.sent?).length)) false] := by
    rw [run_concat, ← (asked_run earlier).2]
    simp only [move, Thread.line, h, if_true]
  obtain ⟨new, hnew⟩ := log_more (earlier ++ [.send job]) later
  rw [List.append_assoc, List.singleton_append, hsent, List.append_assoc] at hnew
  refine ⟨new.filterMap Report.lined?, ?_⟩
  rw [lined, hnew, List.filterMap_append]
  rfl

theorem running_of_answered (job : Job)
    (h : (run (earlier ++ .send job :: later)).answer? (earlier.filterMap Move.sent?).length =
      some true) : (run earlier).loop.running = true := by
  obtain ⟨job', hjob⟩ := taken_of_served (answer?_eq_true.mp h)
  obtain ⟨clock, hmem⟩ := mem_taken_iff.mp hjob
  cases hrunning : (run earlier).loop.running with
  | true => rfl
  | false => exact absurd hmem (unrun_of_later hrunning (Nat.le_refl _) job' clock)

/-- When a job that was sent has been answered with success, the loop has come to all that was in
line before, and to one command more. -/
theorem taken_of_answered (job : Job)
    (h : (run (earlier ++ .send job :: later)).answer? (earlier.filterMap Move.sent?).length =
      some true) :
    (run earlier).lined.length < (run (earlier ++ .send job :: later)).taken.length ∧
      ∀ (n : Nat) (c : Command), (run earlier).lined[n]? = some c →
        (run (earlier ++ .send job :: later)).taken[n]? = some c := by
  obtain ⟨rest, hlined⟩ := lined_sent later (running_of_answered later job h) job
  obtain ⟨job', hjob⟩ := taken_of_served (answer?_eq_true.mp h)
  obtain ⟨more, hmore⟩ := taken_prefix_lined (earlier ++ .send job :: later)
  have hlength : (run earlier).lined.length <
      (run (earlier ++ .send job :: later)).taken.length := by
    refine Nat.lt_of_not_le fun hle => ?_
    -- Otherwise the ticket would have been in line before the job was sent.
    have hhead : (run (earlier ++ .send job :: later)).taken <+: (run earlier).lined := by
      refine List.prefix_of_prefix_length_le ⟨more, hmore⟩ ?_ hle
      rw [hlined]
      exact List.prefix_append _ _
    have hasked := mem_asked_iff.mp (asked_of_lined (hhead.subset hjob))
    obtain ⟨hlt, _⟩ := List.getElem?_eq_some_iff.mp hasked
    exact Nat.lt_irrefl _ hlt
  refine ⟨hlength, fun n c hc => ?_⟩
  obtain ⟨hn, _⟩ := List.getElem?_eq_some_iff.mp hc
  have hall := congrArg (fun cs => cs[n]?) (hmore.trans hlined)
  rw [List.getElem?_append_left (by omega), List.getElem?_append_left hn] at hall
  exact hall.trans hc

/-- With a flush that is answered with success, all that was called before has been executed. -/
theorem hasRun_of_flushed
    (h : (run (earlier ++ .send [] :: later)).answer? (earlier.filterMap Move.sent?).length =
      some true) (hcalled : (run earlier).called[n]? = some (.run job ticket)) :
    (run (earlier ++ .send [] :: later)).HasRun n job := by
  obtain ⟨hlength, htaken⟩ := taken_of_answered later [] h
  rw [called_of_running (running_of_answered later [] h)] at hcalled
  obtain ⟨hn, _⟩ := List.getElem?_eq_some_iff.mp hcalled
  exact hasRun_of_next (htaken n _ hcalled) (by omega)

/-- Once the thread is at rest, a flush has been answered with success unless the loop had ended or
something that was in line before has ended it. -/
theorem flushed_iff (hrest : (run (earlier ++ .send [] :: later)).turn? = none) :
    (run (earlier ++ .send [] :: later)).answer? (earlier.filterMap Move.sent?).length =
        some true ↔
      (run earlier).loop.running = true ∧ ∀ c ∈ (run earlier).lined, c.ends = false := by
  constructor
  · intro h
    obtain ⟨hlength, htaken⟩ := taken_of_answered later [] h
    refine ⟨running_of_answered later [] h, fun c hc => ?_⟩
    obtain ⟨n, hn, rfl⟩ := List.mem_iff_getElem.mp hc
    exact not_ends_of_next (htaken n _ (List.getElem?_eq_getElem hn)) (by omega)
  · rintro ⟨hrunning, hclean⟩
    obtain ⟨rest, hlined⟩ := lined_sent later hrunning []
    have hmem : .run [] (some (earlier.filterMap Move.sent?).length) ∈
        (run (earlier ++ .send [] :: later)).taken := by
      rw [taken_at_rest hrest, hlined, upTo_append_of_none _ hclean]
      exact List.mem_append_right _ List.mem_cons_self
    refine answer?_eq_true.mpr ((served_iff hmem).mpr ⟨rfl, ?_⟩)
    rw [(idle_of_rest hrest).1]
    simp

end

/-! ## Calls on the loop's own thread -/

theorem move_flush {rest : Job} {o : Origin} (h : x.doing = some ⟨.flush :: rest, o⟩) :
    x.move .turn = ⟨x.loop, some ⟨rest, o⟩, x.log ++ [.did .flush]⟩ := by
  simp only [move, turn?, h, Option.getD_some]
  rfl

/-- When it returns, all that was called before has been executed, apart from the job that calls
it, just in case no job stands in the queue. -/
theorem hasRun_after_flush_iff {earlier : List Move} {rest : Job} {o : Origin}
    (h : (run earlier).doing = some ⟨.flush :: rest, o⟩) :
    (∀ n job ticket, (run earlier).called[n]? = some (.run job ticket) →
        ¬(run earlier).InHand n → ((run earlier).move .turn).HasRun n job) ↔
      ∀ job ticket, .run job ticket ∉ (run earlier).loop.queue := by
  have hrunning : (run earlier).loop.running = true := alive_run earlier _ h
  have hunderway : (run earlier).Underway := by
    rcases underway_or_over earlier with hunderway | hover
    · exact hunderway
    · exact absurd (hover.running.symm.trans hrunning) (by simp)
  have hmove := move_flush h
  have htaken : ((run earlier).move .turn).taken = (run earlier).taken := by
    rw [hmove, taken_append]
    exact List.append_nil _
  rw [called_of_running hrunning, hunderway.line]
  constructor
  · intro hall job ticket hmem
    obtain ⟨k, hk, hget⟩ := List.mem_iff_getElem.mp hmem
    have hrun := hall ((run earlier).taken.length + k) job ticket (by
      rw [List.getElem?_append_right (Nat.le_add_right _ _), Nat.add_sub_cancel_left,
        List.getElem?_eq_getElem hk, hget]) (fun hhand => by
      have hplace := hhand.1
      omega)
    have hlt := hrun.lt
    rw [htaken] at hlt
    omega
  · intro hnone n job ticket hcalled hhand
    have hlt : n < (run earlier).taken.length := by
      refine Nat.lt_of_not_le fun hle => ?_
      rw [List.getElem?_append_right hle] at hcalled
      exact hnone job ticket (List.mem_of_getElem? hcalled)
    rw [List.getElem?_append_left hlt] at hcalled
    rw [← run_concat] at htaken hmove ⊢
    refine hasRun_of_taken ?_ (htaken ▸ hcalled) ?_
    · rw [hmove]
      exact hrunning
    · rintro ⟨hplace, left, ticket', hdoing⟩
      rw [hmove] at hdoing
      cases hdoing
      exact hhand ⟨htaken ▸ hplace, _, ticket', h⟩

/-! ## Flushes -/

/-- Whatever calls come from outside, from jobs and from timers, to any depth and at any time:

* When a flush from outside has been answered with success, every job that was called for before it,
from outside or from a job, has been executed to its end. It is answered so unless the loop had
ended or something that was in line before ends it. With nobody else calling this is what the loop
answers.
* A flush on the loop's own thread returns at once and changes nothing. So it leaves behind the jobs
in the queue, and has nothing to wait for just in case there are none. -/
theorem flush_waits_outside_only (earlier later : List Move) :
    let x := run earlier
    (let y := run (earlier ++ .send [] :: later)
      let ticket := (earlier.filterMap Move.sent?).length
      (y.answer? ticket = some true →
        ∀ n job t, x.called[n]? = some (.run job t) → y.HasRun n job) ∧
      (y.turn? = none → (y.answer? ticket = some true ↔
        x.loop.running = true ∧ ∀ c ∈ x.lined, c.ends = false))) ∧
    (x.doing = none → ∃ y, Leads (x.move (.send [])) y ∧ y.turn? = none ∧
      y.loop = x.loop.flush.1 ∧ y.answer? x.loop.nextTicket = some x.loop.flush.2) ∧
    ∀ rest o, x.doing = some ⟨.flush :: rest, o⟩ →
      let y := x.move .turn
      y.doing = some ⟨rest, o⟩ ∧ y.loop = x.loop ∧ y.acts = x.acts ++ [.flush] ∧
      ((∀ n job t, x.called[n]? = some (.run job t) → ¬x.InHand n → y.HasRun n job) ↔
        ∀ job t, .run job t ∉ x.loop.queue) := by
  intro x
  refine ⟨⟨fun h n job t hcalled => hasRun_of_flushed later h hcalled, flushed_iff later⟩,
    fun hdoing => leads_send hdoing [], ?_⟩
  intro rest o hdoing y
  have hmove : y = _ := move_flush hdoing
  refine ⟨by rw [hmove], by rw [hmove], ?_, hasRun_after_flush_iff hdoing⟩
  rw [hmove]
  exact acts_did x .flush x.loop _

/-- A flush that is called after the first moves has returned with success after the others: it came
from outside, or it was the next act of the thread. -/
def Flushed (earlier later : List Move) : Prop :=
  (∃ rest, later = .send [] :: rest ∧
    (run (earlier ++ later)).answer? (earlier.filterMap Move.sent?).length = some true) ∨
  ∃ rest o, (run earlier).doing = some ⟨.flush :: rest, o⟩ ∧ .turn ∈ later

/-- A job posts another one and flushes: when the flush returns, the other job has not run. -/
theorem flushed_before_run :
    ¬∀ earlier later, Flushed earlier later → ∀ n job ticket,
      (run earlier).called[n]? = some (.run job ticket) → ¬(run earlier).InHand n →
        (run (earlier ++ later)).HasRun n job := by
  intro h
  let earlier : List Move := [.post [.post [.note "posted"], .flush], .turn, .turn]
  have hrun := h earlier [.turn] (Or.inr ⟨[], .queue none, rfl, List.mem_singleton_self _⟩) 1
    [.note "posted"] none rfl (fun hhand => absurd hhand.1 (by decide))
  exact absurd hrun.lt (by decide)

end Thread
end MediaRelay
