import MediaRelay.Proofs.Schedule.Execution

/-! # Tickets

A job that is sent from outside carries a ticket, its place among all jobs sent. The tickets in line
are therefore all different. As long as the loop runs, the tickets that it has come to are those it
has served, in this order, and that of the job in hand; when a job crashes, the loop ends with its
ticket unserved. What a thread performs between taking a job and serving its ticket are the acts of
that job, all of them.
-/
namespace MediaRelay

theorem List.filterMap_sublist_filterMap {α β : Type} {f g : α → Option β}
    (h : ∀ a b, f a = some b → g a = some b) (xs : List α) :
    (xs.filterMap f).Sublist (xs.filterMap g) := by
  induction xs with
  | nil => exact .slnil
  | cons a rest ih =>
    cases hf : f a with
    | none =>
      rw [List.filterMap_cons_none hf]
      cases hg : g a with
      | none => rwa [List.filterMap_cons_none hg]
      | some b =>
        rw [List.filterMap_cons_some hg]
        exact ih.cons b
    | some b =>
      rw [List.filterMap_cons_some hf, List.filterMap_cons_some (h a b hf)]
      exact ih.cons_cons b

def Command.ticket? : Command → Option Nat
  | .run _ ticket => ticket
  | _ => none

def Command.asked? : Command → Option (Job × Nat)
  | .run job (some ticket) => some (job, ticket)
  | _ => none

theorem Command.ticket?_eq (c : Command) : c.ticket? = c.asked?.map Prod.snd := by
  cases c with
  | run job ticket => cases ticket <;> rfl
  | _ => rfl

theorem Command.asked?_eq_some {c : Command} {job : Job} {ticket : Nat} :
    c.asked? = some (job, ticket) ↔ c = .run job (some ticket) := by
  constructor
  · intro h
    cases c with
    | run other t =>
      cases t with
      | none => cases h
      | some t =>
        cases h
        rfl
    | timer delay other => cases h
    | stop => cases h
  · rintro rfl
    rfl

theorem Job.acts_of_not_crashes {job : Job} (h : job.crashes = false) :
    Job.acts job = spreadOf job := by
  have hnone : ∀ a ∈ spreadOf job, a.isCrash = false := by
    simpa [Job.crashes] using h
  have heq := upTo_append_of_none [] hnone
  rwa [List.append_nil, upTo, List.append_nil] at heq

namespace Thread

def Move.sent? : Move → Option Job
  | .send job => some job
  | _ => none

def Execution.ticket? (e : Execution) : Option Nat :=
  match e.origin with
  | .queue ticket => ticket
  | .timer => none

/-- The sent jobs in the order of the calls, those among them that were dropped at once. -/
def Report.asked? : Report → Option (Job × Nat)
  | .lined c _ => c.asked?
  | .dropped c => c.asked?
  | _ => none

def asked (x : Thread) : List (Job × Nat) := x.log.filterMap Report.asked?

variable {x : Thread}

/-! ## Tickets -/

theorem Way.unasked {new : List Report} {l : Loop} {d : Option Execution} (hway : Way x new l d)
    (h : new.filterMap Report.brought? = []) :
    new.filterMap Report.asked? = [] ∧ l.nextTicket = x.loop.nextTicket := by
  cases hway with
  | line c n _ => cases h
  | drop c n _ => cases h
  | issue a c e _ hc => cases a <;> cases hc <;> exact ⟨rfl, rfl⟩
  | _ => exact ⟨rfl, rfl⟩

theorem asked_move (h : x.Alive) (m : Move) :
    (x.move m).asked = x.asked ++ (m.sent?.map fun job => (job, x.loop.nextTicket)).toList ∧
      (x.move m).loop.nextTicket = x.loop.nextTicket + m.sent?.toList.length := by
  have hline : ∀ (l : Loop) (c : Command),
      ((Thread.mk l x.doing x.log).line c false).asked = x.asked ++ c.asked?.toList ∧
        ((Thread.mk l x.doing x.log).line c false).loop.nextTicket = l.nextTicket := by
    intro l c
    constructor
    · simp only [Thread.line, asked, List.filterMap_append]
      split <;> cases hc : c.asked? <;> simp [Report.asked?, hc]
    · simp only [Thread.line, Loop.enqueue]
      split <;> rfl
  have hown : m.command? = none → m.sent? = none →
      (x.move m).asked = x.asked ++ (m.sent?.map fun job => (job, x.loop.nextTicket)).toList ∧
        (x.move m).loop.nextTicket = x.loop.nextTicket + m.sent?.toList.length := by
    intro hc hs
    obtain ⟨new, hlog, hway⟩ := goes_move h m
    have hbrought := brought_move h m
    rw [hlog, hc, List.filterMap_append] at hbrought
    obtain ⟨hasked, hnext⟩ := hway.unasked (List.append_cancel_left hbrought)
    rw [hs, asked, hlog, List.filterMap_append, hasked]
    exact ⟨rfl, hnext⟩
  cases m with
  | post job => exact hline x.loop (.run job none)
  | send job =>
    exact hline { x.loop with nextTicket := x.loop.nextTicket + 1 } (.run job (some _))
  | timer delay job => exact hline x.loop (.timer delay job)
  | stop => exact hline x.loop .stop
  | turn => exact hown rfl rfl
  | fire n => exact hown rfl rfl
  | elapse time => exact hown rfl rfl

/-- The ticket of a sent job is its place among the sent jobs. -/
theorem asked_run (moves : List Move) :
    (run moves).asked = (moves.filterMap Move.sent?).zipIdx ∧
      (run moves).loop.nextTicket = (moves.filterMap Move.sent?).length := by
  induction moves using List.reverseRecOn with
  | nil => exact ⟨rfl, rfl⟩
  | append_singleton moves m ih =>
    obtain ⟨hasked, hnext⟩ := asked_move (alive_run moves) m
    rw [run_concat, hasked, hnext, ih.1, ih.2, List.filterMap_append, List.zipIdx_append,
      List.length_append, Nat.zero_add]
    cases m <;> exact ⟨rfl, rfl⟩

theorem mem_asked_iff {moves : List Move} {job : Job} {ticket : Nat} :
    (job, ticket) ∈ (run moves).asked ↔
      (moves.filterMap Move.sent?)[ticket]? = some job := by
  rw [(asked_run moves).1, List.mem_zipIdx_iff_getElem?]

theorem lined_asked (x : Thread) : (x.lined.filterMap Command.asked?).Sublist x.asked := by
  rw [lined, List.filterMap_filterMap]
  refine List.filterMap_sublist_filterMap ?_ x.log
  intro r p h
  cases r with
  | lined c inside => exact h
  | _ => cases h

theorem nodup_lined_tickets (moves : List Move) :
    ((run moves).lined.filterMap Command.ticket?).Nodup := by
  have heq : (run moves).lined.filterMap Command.ticket? =
      ((run moves).lined.filterMap Command.asked?).map Prod.snd := by
    rw [List.map_filterMap]
    exact congrArg (fun f => List.filterMap f _) (funext Command.ticket?_eq)
  rw [heq]
  refine ((run moves).lined_asked.map Prod.snd).nodup ?_
  rw [(asked_run moves).1, List.zipIdx_map_snd]
  exact List.nodup_range'

/-! ## What the loop has served -/

/-- The ticket that is served when the thread goes on to something else. -/
def leaving (x : Thread) (next : Option Execution) : List Nat :=
  match x.doing, next with
  | some ⟨[], .queue ticket⟩, none => ticket.toList
  | _, _ => []

theorem leaving_of_same {next : Option Execution} (h : next = x.doing) : x.leaving next = [] := by
  subst h
  unfold leaving
  split
  · rename_i hdoing hnone
    rw [hdoing] at hnone
    cases hnone
  · rfl

theorem leaving_of_act {next : Option Execution} {a : Act} {rest : Job} {o : Origin}
    (h : x.doing = some ⟨a :: rest, o⟩) : x.leaving next = [] := by
  unfold leaving
  rw [h]

theorem leaving_of_idle {next : Option Execution} (h : x.doing = none) : x.leaving next = [] := by
  unfold leaving
  rw [h]

theorem served_line (x : Thread) (c : Command) (inside : Bool) :
    (x.line c inside).loop.served = x.loop.served := by
  simp only [Thread.line, Loop.enqueue]
  split <;> rfl

theorem served_perform (x : Thread) (a : Act) (e : Execution) :
    (x.perform a e).loop.served = x.loop.served := by
  cases a with
  | post job => exact served_line _ _ _
  | timer delay job => exact served_line _ _ _
  | stop => exact served_line _ _ _
  | crash =>
    simp only [perform, crash]
    cases e.origin <;> rfl
  | note tag => rfl
  | send job => rfl
  | flush => rfl

theorem served_turn (x : Thread) :
    (x.turn?.getD x).loop.served = x.loop.served ++ x.leaving (x.turn?.getD x).doing := by
  unfold turn?
  split
  · rename_i a rest o hdoing
    rw [leaving_of_act hdoing, List.append_nil]
    exact served_perform x a ⟨rest, o⟩
  · rename_i o hdoing
    cases o with
    | queue ticket => simp [complete, leaving, hdoing]
    | timer => simp [complete, leaving, hdoing]
  · rename_i hdoing
    rw [leaving_of_idle hdoing, List.append_nil]
    split
    · rfl
    · rename_i c rest _
      cases c <;> rfl

theorem served_move (x : Thread) (m : Move) :
    (x.move m).loop.served = x.loop.served ++ x.leaving (x.move m).doing := by
  have hsame : ∀ {y : Thread}, y.doing = x.doing → y.loop.served = x.loop.served →
      y.loop.served = x.loop.served ++ x.leaving y.doing := by
    intro y hdoing hserved
    rw [leaving_of_same hdoing, hserved, List.append_nil]
  cases m with
  | post job => exact hsame rfl (served_line _ _ _)
  | send job => exact hsame rfl (served_line _ _ _)
  | timer delay job => exact hsame rfl (served_line _ _ _)
  | stop => exact hsame rfl (served_line _ _ _)
  | elapse time => exact hsame rfl rfl
  | turn => exact served_turn x
  | fire n =>
    simp only [move, fire?]
    split
    · rename_i t hdoing _
      split
      · rw [leaving_of_idle hdoing]
        exact (List.append_nil _).symm
      · rw [leaving_of_idle hdoing]
        exact (List.append_nil _).symm
    · exact hsame rfl rfl

theorem taken_of_doing (moves : List Move) : ∀ left ticket,
    (run moves).doing = some ⟨left, .queue ticket⟩ →
      ∃ front job, (run moves).taken = front ++ [.run job ticket] := by
  refine run_induction (P := fun x => ∀ left ticket, x.doing = some ⟨left, .queue ticket⟩ →
    ∃ front job, x.taken = front ++ [.run job ticket]) (by simp) ?_ moves
  intro x new l d hx hway left ticket hd
  have hgoOn : new.filterMap Report.taken? = [] → (∃ left, x.doing = some ⟨left, .queue ticket⟩) →
      ∃ front job, (Thread.mk l d (x.log ++ new)).taken = front ++ [.run job ticket] := by
    rintro hnone ⟨left, hdoing⟩
    rw [taken_append, hnone, List.append_nil]
    exact hx left ticket hdoing
  cases hway with
  | stay => exact hgoOn rfl ⟨left, hd⟩
  | elapse time => exact hgoOn rfl ⟨left, hd⟩
  | line c n _ => exact hgoOn rfl ⟨left, hd⟩
  | drop c n _ => exact hgoOn rfl ⟨left, hd⟩
  | note tag e hdoing => cases hd; exact hgoOn rfl ⟨_, hdoing⟩
  | flush e hdoing => cases hd; exact hgoOn rfl ⟨_, hdoing⟩
  | send job e hdoing =>
    obtain ⟨rest, o⟩ := e
    cases hd
    exact hgoOn rfl ⟨_, hdoing⟩
  | issue a c e hdoing _ => cases hd; exact hgoOn rfl ⟨_, hdoing⟩
  | fail rest t _ => cases hd
  | fault rest _ => cases hd
  | complete o served _ => cases hd
  | start job t rest _ _ =>
    cases hd
    rw [taken_append]
    exact ⟨x.taken, left, rfl⟩
  | accept delay job rest _ _ => cases hd
  | stop rest _ _ => cases hd
  | fire n t _ _ _ => cases hd

/-- The tickets that the loop has come to are served, one after another, apart from that of the job
in hand and from that of the job with which the loop has crashed. -/
structure Accounted (x : Thread) : Prop where
  running : x.loop.running = true →
    x.taken.filterMap Command.ticket? =
      x.loop.served ++ (x.doing.bind Execution.ticket?).toList
  stopped : x.loop.running = false →
    ∃ front c, x.taken = front ++ [c] ∧ front.filterMap Command.ticket? = x.loop.served

theorem running_of_queue (h : x.Underway ∨ x.Over) {c : Command} {rest : List Command}
    (hqueue : x.loop.queue = c :: rest) : x.loop.running = true := by
  rcases h with hunderway | hover
  · exact hunderway.running
  · rw [hover.queue] at hqueue
    cases hqueue

theorem Accounted.goes (h : x.Accounted) {new : List Report} {l : Loop} {d : Option Execution}
    (hway : Way x new l d) (hserved : l.served = x.loop.served ++ x.leaving d)
    (hx : x.Underway ∨ x.Over)
    (hlast : ∀ left ticket, x.doing = some ⟨left, .queue ticket⟩ →
      ∃ front job, x.taken = front ++ [.run job ticket]) :
    Accounted ⟨l, d, x.log ++ new⟩ := by
  have halive : x.Alive := hx.elim Underway.alive Over.alive
  have hgoOn : new.filterMap Report.taken? = [] → l.running = x.loop.running →
      l.served = x.loop.served →
      d.bind Execution.ticket? = x.doing.bind Execution.ticket? →
      Accounted ⟨l, d, x.log ++ new⟩ := by
    intro hnone hrunning hsame hticket
    have htaken : (Thread.mk l d (x.log ++ new)).taken = x.taken := by
      rw [taken_append, hnone, List.append_nil]
    refine ⟨fun hr => ?_, fun hr => ?_⟩
    · rw [htaken, hsame, hticket]
      exact h.running (hrunning.symm.trans hr)
    · rw [htaken, hsame]
      exact h.stopped (hrunning.symm.trans hr)
  have hact : ∀ {a : Act} {e : Execution} {rest : Job}, x.doing = some ⟨a :: e.rest, e.origin⟩ →
      (some (Execution.mk rest e.origin)).bind Execution.ticket? =
        x.doing.bind Execution.ticket? := by
    intro a e rest hdoing
    rw [hdoing]
    rfl
  -- A further command is taken: its ticket is that of the job in hand, if it has one.
  have htakes : ∀ {c : Command} {rest : List Command}, x.doing = none →
      x.loop.queue = c :: rest → new.filterMap Report.taken? = [c] → l.running = true →
      l.served = x.loop.served → (d.bind Execution.ticket?).toList = c.ticket?.toList →
      Accounted ⟨l, d, x.log ++ new⟩ := by
    intro c rest hdoing hqueue hnew hrunning hsame hticket
    have hall := h.running (running_of_queue hx hqueue)
    rw [hdoing] at hall
    refine ⟨fun _ => ?_, fun hr => absurd (hrunning.symm.trans hr) (by simp)⟩
    rw [taken_append, hnew, List.filterMap_append, hall, hsame, hticket]
    cases hc : c.ticket? <;> simp [hc]
  cases hway with
  | stay => exact hgoOn rfl rfl rfl rfl
  | elapse time => exact hgoOn rfl rfl rfl rfl
  | line c n _ => exact hgoOn rfl rfl rfl rfl
  | drop c n _ => exact hgoOn rfl rfl rfl rfl
  | note tag e hdoing => exact hgoOn rfl rfl rfl (hact hdoing)
  | flush e hdoing => exact hgoOn rfl rfl rfl (hact hdoing)
  | send job e hdoing => exact hgoOn rfl rfl rfl (hact hdoing)
  | issue a c e hdoing _ => exact hgoOn rfl rfl rfl (hact hdoing)
  | fail rest ticket hdoing =>
    -- The loop ends with the ticket of the job in hand, which stands last among the tickets.
    obtain ⟨front, job, htaken⟩ := hlast _ _ hdoing
    have hall := h.running (halive _ hdoing)
    rw [htaken, hdoing, List.filterMap_append] at hall
    have hfront : front.filterMap Command.ticket? = x.loop.served := by
      cases ticket <;> exact List.append_cancel_right hall
    refine ⟨fun hr => absurd hr (by simp [Loop.finish]), fun _ =>
      ⟨front, .run job ticket, ?_, hfront⟩⟩
    rw [taken_append, htaken]
    exact List.append_nil _
  | fault rest hdoing => exact hgoOn rfl rfl rfl (by rw [hdoing]; rfl)
  | complete o served hdoing =>
    have hrunning := halive _ hdoing
    refine ⟨fun hr => ?_, fun hr => absurd (hrunning.symm.trans hr) (by simp)⟩
    change served = _ at hserved
    rw [taken_append, List.filterMap_append, h.running hr, hserved, hdoing]
    cases o <;> simp [leaving, hdoing, Execution.ticket?]
  | start job ticket rest hdoing hqueue =>
    exact htakes hdoing hqueue rfl (running_of_queue hx hqueue) rfl rfl
  | accept delay job rest hdoing hqueue =>
    exact htakes hdoing hqueue rfl (running_of_queue hx hqueue) rfl rfl
  | stop rest hdoing hqueue =>
    have hall := h.running (running_of_queue hx hqueue)
    rw [hdoing, Option.bind_none, Option.toList_none, List.append_nil] at hall
    refine ⟨fun hr => absurd hr (by simp [Loop.finish]), fun _ => ⟨x.taken, .stop, ?_, hall⟩⟩
    rw [taken_append]
    rfl
  | fire n t hdoing _ _ => exact hgoOn rfl rfl rfl (by rw [hdoing]; rfl)

theorem accounted_run (moves : List Move) : (run moves).Accounted := by
  induction moves using List.reverseRecOn with
  | nil => exact ⟨fun _ => rfl, fun h => by cases h⟩
  | append_singleton moves m ih =>
    obtain ⟨new, hlog, hway⟩ := goes_move (alive_run moves) m
    have hnext := ih.goes hway (served_move (run moves) m) (underway_or_over moves)
      (taken_of_doing moves)
    rw [← hlog] at hnext
    rw [run_concat]
    exact hnext

theorem taken_prefix_lined (moves : List Move) : (run moves).taken <+: (run moves).lined := by
  rcases underway_or_over moves with hunderway | hover
  · rw [hunderway.line]
    exact List.prefix_append _ _
  · exact hover.line

theorem asked_of_lined {job : Job} {ticket : Nat} (h : .run job (some ticket) ∈ x.lined) :
    (job, ticket) ∈ x.asked :=
  x.lined_asked.subset (List.mem_filterMap.mpr ⟨_, h, rfl⟩)

theorem job_of_ticket {moves : List Move} {job other : Job} {ticket : Nat}
    (h : (job, ticket) ∈ (run moves).asked) (h' : (other, ticket) ∈ (run moves).asked) :
    job = other :=
  Option.some.inj ((mem_asked_iff.mp h).symm.trans (mem_asked_iff.mp h'))

theorem mem_tickets_iff {cs : List Command} {ticket : Nat} :
    ticket ∈ cs.filterMap Command.ticket? ↔ ∃ job, .run job (some ticket) ∈ cs := by
  rw [List.mem_filterMap]
  constructor
  · rintro ⟨c, hc, ht⟩
    cases c with
    | run job t =>
      cases ht
      exact ⟨job, hc⟩
    | timer delay job => cases ht
    | stop => cases ht
  · rintro ⟨job, hjob⟩
    exact ⟨_, hjob, rfl⟩

/-- A sent job that the loop has come to is served, unless it is in hand or crashes. -/
theorem served_iff {moves : List Move} {job : Job} {ticket : Nat}
    (h : .run job (some ticket) ∈ (run moves).taken) :
    ticket ∈ (run moves).loop.served ↔
      job.crashes = false ∧ (run moves).doing.bind Execution.ticket? ≠ some ticket := by
  have hhead := taken_prefix_lined moves
  have hnodup := (hhead.sublist.filterMap Command.ticket?).nodup (nodup_lined_tickets moves)
  have hmem : ticket ∈ (run moves).taken.filterMap Command.ticket? :=
    mem_tickets_iff.mpr ⟨job, h⟩
  rcases underway_or_over moves with hunderway | hover
  · rw [(accounted_run moves).running hunderway.running] at hnodup hmem
    -- The job in hand is the last one taken, and only that can crash.
    have hclean : (run moves).doing.bind Execution.ticket? ≠ some ticket → job.crashes = false := by
      intro hne
      have hclean := hunderway.clean
      cases hdoing : (run moves).doing with
      | none =>
        rw [hdoing] at hclean
        exact hclean _ h
      | some e =>
        obtain ⟨left, o⟩ := e
        rw [hdoing] at hclean hne
        cases o with
        | timer => exact hclean _ h
        | queue t =>
          obtain ⟨front, c, htaken, hfront, _⟩ := hclean
          obtain ⟨front', last, hlast⟩ := taken_of_doing moves left t hdoing
          rw [htaken] at h
          rcases List.mem_append.mp h with hin | hin
          · exact hfront _ hin
          · obtain ⟨_, hc⟩ := List.append_inj' (htaken.symm.trans hlast) rfl
            rw [← List.mem_singleton.mp hin] at hc
            cases hc
            exact absurd rfl hne
    constructor
    · intro hserved
      have hne : (run moves).doing.bind Execution.ticket? ≠ some ticket := by
        intro he
        rw [he] at hnodup
        exact (List.nodup_append.mp hnodup).2.2 ticket hserved ticket (by simp) rfl
      exact ⟨hclean hne, hne⟩
    · rintro ⟨_, hne⟩
      rcases List.mem_append.mp hmem with hserved | hd
      · exact hserved
      · exact absurd (Option.mem_toList.mp hd) hne
  · obtain ⟨front, c, htaken, hfront, hc⟩ := hover.last
    obtain ⟨front', c', htaken', hserved⟩ := (accounted_run moves).stopped hover.running
    obtain ⟨rfl, _⟩ := List.append_inj' (htaken.symm.trans htaken') rfl
    rw [← hserved, hover.doing]
    constructor
    · intro hin
      obtain ⟨other, hother⟩ := mem_tickets_iff.mp hin
      have hsame : other = job := by
        refine job_of_ticket (asked_of_lined (hhead.subset ?_)) (asked_of_lined (hhead.subset h))
        rw [htaken]
        exact List.mem_append_left _ hother
      subst hsame
      exact ⟨hfront _ hother, by simp⟩
    · rintro ⟨hcrashes, _⟩
      rw [htaken] at h
      rcases List.mem_append.mp h with hin | hin
      · exact mem_tickets_iff.mpr ⟨job, hin⟩
      · rw [← List.mem_singleton.mp hin] at hc
        exact absurd (hcrashes.symm.trans hc) (by simp)

/-! ## What becomes of a job that is taken -/

/-- Where the thread stands with a job, after acts performed since it came to it: some of the job
are left, or all were performed, or all up to a crash, and then the loop has ended. -/
def Since (x : Thread) (job : Job) (ticket : Option Nat) (done : List Act) : Prop :=
  (∃ left, x.doing = some ⟨left, .queue ticket⟩ ∧ Job.acts job = done ++ Job.acts left ∧
    job.crashes = Job.crashes left) ∨
  (job.crashes = false ∧ spreadOf job <+: done) ∨
  (job.crashes = true ∧ done = Job.acts job ∧ x.loop.running = false)

theorem Over.quiet (h : x.Over) {new : List Report} {l : Loop} {d : Option Execution}
    (hway : Way x new l d) : new = [] ∨ ∃ c, new = [.dropped c] := by
  have hrunning := h.running
  have hdoing := h.doing
  have hqueue := h.queue
  have htimers := h.timers
  cases hway with
  | stay => exact Or.inl rfl
  | elapse time => exact Or.inl rfl
  | drop c n _ => exact Or.inr ⟨c, rfl⟩
  | _ => simp_all

theorem Since.goes {job : Job} {ticket : Option Nat} {done : List Act}
    (h : x.Since job ticket done) {new : List Report} {l : Loop} {d : Option Execution}
    (hway : Way x new l d) (hx : x.Underway ∨ x.Over) :
    Since ⟨l, d, x.log ++ new⟩ job ticket (done ++ new.filterMap Report.act?) := by
  rcases h with ⟨left, hd, hacts, hcrashes⟩ | ⟨hcrashes, hhead⟩ | ⟨hcrashes, hdone, hrunning⟩
  · have hstep : ∀ {a : Act} {rest next : Job} {o : Origin} {n : List Report} {m : Loop},
        x.doing = some ⟨a :: rest, o⟩ → n.filterMap Report.act? = [a] →
        Job.acts (a :: rest) = a :: Job.acts next →
        Job.crashes (a :: rest) = Job.crashes next →
        Since ⟨m, some ⟨next, o⟩, x.log ++ n⟩ job ticket (done ++ n.filterMap Report.act?) := by
      intro a rest next o n m hdoing hnew hnext hsame
      cases hd.symm.trans hdoing
      refine Or.inl ⟨next, rfl, ?_, hcrashes.trans hsame⟩
      rw [hacts, hnext, hnew, List.append_assoc]
      rfl
    have hstay : ∀ {n : List Report} {m : Loop}, n.filterMap Report.act? = [] →
        Since ⟨m, x.doing, x.log ++ n⟩ job ticket (done ++ n.filterMap Report.act?) := by
      intro n m hnew
      rw [hnew, List.append_nil]
      exact Or.inl ⟨left, hd, hacts, hcrashes⟩
    cases hway with
    | stay => exact hstay rfl
    | elapse time => exact hstay rfl
    | line c n _ => exact hstay rfl
    | drop c n _ => exact hstay rfl
    | note tag e hdoing => exact hstep hdoing rfl rfl rfl
    | flush e hdoing => exact hstep hdoing rfl rfl rfl
    | send sent e hdoing =>
      exact hstep hdoing rfl (Job.acts_send sent e.rest) (Job.crashes_send sent e.rest)
    | issue a c e hdoing hc =>
      refine hstep hdoing rfl ?_ ?_ <;> cases a <;> first | rfl | cases hc
    | fail rest t hdoing =>
      cases hd.symm.trans hdoing
      exact Or.inr (Or.inr ⟨hcrashes, hacts.symm, rfl⟩)
    | fault rest hdoing => cases hd.symm.trans hdoing
    | complete o served hdoing =>
      cases hd.symm.trans hdoing
      refine Or.inr (Or.inl ⟨hcrashes, ?_⟩)
      have hall : spreadOf job = done := by
        rw [← Job.acts_of_not_crashes hcrashes, hacts]
        exact List.append_nil _
      rw [hall]
      exact List.prefix_append _ _
    | start _ _ _ hdoing _ => cases hd.symm.trans hdoing
    | accept _ _ _ hdoing _ => cases hd.symm.trans hdoing
    | stop _ hdoing _ => cases hd.symm.trans hdoing
    | fire _ _ hdoing _ _ => cases hd.symm.trans hdoing
  · exact Or.inr (Or.inl ⟨hcrashes, hhead.trans (List.prefix_append _ _)⟩)
  · have hover : x.Over := by
      rcases hx with hunderway | hover
      · exact absurd (hunderway.running.symm.trans hrunning) (by simp)
      · exact hover
    refine Or.inr (Or.inr ⟨hcrashes, ?_, (hover.goes hway).running⟩)
    rcases hover.quiet hway with rfl | ⟨c, rfl⟩
    · exact (List.append_nil _).trans hdone
    · exact (List.append_nil _).trans hdone

theorem entry_of_append {α : Type} {xs ys before after : List α} {a : α}
    (h : xs ++ ys = before ++ a :: after) :
    (∃ rest, xs = before ++ a :: rest ∧ after = rest ++ ys) ∨
      ∃ mid, before = xs ++ mid ∧ ys = mid ++ a :: after := by
  rcases List.append_eq_append_iff.mp h with ⟨mid, hbefore, hys⟩ | ⟨mid, hxs, hafter⟩
  · exact Or.inr ⟨mid, hbefore, hys⟩
  · cases mid with
    | nil => exact Or.inr ⟨[], by rw [hxs]; simp, hafter.symm⟩
    | cons b rest =>
      cases hafter
      exact Or.inl ⟨rest, hxs, rfl⟩

/-- Of every job that was taken: what has been performed since. -/
def Traced (x : Thread) : Prop := ∀ before job ticket clock after,
  x.log = before ++ .took (.run job ticket) clock :: after →
    x.Since job ticket (after.filterMap Report.act?)

theorem Traced.goes (h : x.Traced) {new : List Report} {l : Loop} {d : Option Execution}
    (hway : Way x new l d) (hx : x.Underway ∨ x.Over) : Traced ⟨l, d, x.log ++ new⟩ := by
  intro before job ticket clock after hlog
  rcases entry_of_append hlog with ⟨rest, hold, rfl⟩ | ⟨mid, _, hnew⟩
  · rw [List.filterMap_append]
    exact (h before job ticket clock rest hold).goes hway hx
  · -- The job is taken just now, and all of it is left.
    have hmem : Report.took (.run job ticket) clock ∈ new := by simp [hnew]
    cases hway with
    | start other t queue _ _ =>
      cases mid with
      | nil =>
        cases hnew
        exact Or.inl ⟨job, rfl, rfl, rfl⟩
      | cons r more => simp at hnew
    | _ => simp at hmem

theorem traced_run (moves : List Move) : (run moves).Traced := by
  induction moves using List.reverseRecOn with
  | nil =>
    intro before job ticket clock after h
    exact absurd h.symm (by simp [run])
  | append_singleton moves m ih =>
    obtain ⟨new, hlog, hway⟩ := goes_move (alive_run moves) m
    have hnext := ih.goes hway (underway_or_over moves)
    rw [← hlog] at hnext
    rw [run_concat]
    exact hnext

end Thread
end MediaRelay
