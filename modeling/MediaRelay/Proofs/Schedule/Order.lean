import MediaRelay.Proofs.Schedule.Thread
import Mathlib.Data.List.Induction
import Mathlib.Data.List.Basic

/-! # What a loop executes

The commands that the thread comes to are those in front of the line, up to the first stop command
or the first job that crashes, whoever has put what in line meanwhile. Of each job the acts are
performed in a row, with those of jobs sent on the spot right behind the call. Timers fire once each
and not before they are due, and whatever they do, the loop goes on.
-/
namespace MediaRelay

/-- All up to the first with a property, that one included. -/
def upTo {α : Type} (p : α → Bool) : List α → List α
  | [] => []
  | a :: rest => if p a then [a] else a :: upTo p rest

theorem upTo_append_of_none {α : Type} {p : α → Bool} {xs : List α} (ys : List α)
    (h : ∀ a ∈ xs, p a = false) : upTo p (xs ++ ys) = xs ++ upTo p ys := by
  induction xs with
  | nil => rfl
  | cons a rest ih =>
    rw [List.forall_mem_cons] at h
    simp only [List.cons_append, upTo, h.1, Bool.false_eq_true, if_false, ih h.2]

/-! ## The acts of a job -/

mutual
/-- An act, and behind it the acts of the job that it sends, if it does. -/
def Act.spread : Act → List Act
  | .send job => .send job :: spreadOf job
  | .note tag => [.note tag]
  | .post job => [.post job]
  | .timer delay job => [.timer delay job]
  | .flush => [.flush]
  | .stop => [.stop]
  | .crash => [.crash]
termination_by structural a => a

def spreadOf : List Act → List Act
  | [] => []
  | a :: rest => a.spread ++ spreadOf rest
termination_by structural job => job
end

def Act.isCrash : Act → Bool
  | .crash => true
  | _ => false

/-- The acts that are performed when a job is executed; after a crash there are none. -/
def Job.acts (job : Job) : List Act := upTo Act.isCrash (spreadOf job)

def Job.crashes (job : Job) : Bool := (spreadOf job).any Act.isCrash

/-- The loop comes to no command behind this one. -/
def Command.ends : Command → Bool
  | .run job _ => job.crashes
  | .timer _ _ => false
  | .stop => true

theorem spreadOf_append (job more : List Act) :
    spreadOf (job ++ more) = spreadOf job ++ spreadOf more := by
  induction job with
  | nil => rfl
  | cons a rest ih => simp only [List.cons_append, spreadOf, ih, List.append_assoc]

namespace Job

theorem acts_send (job rest : Job) :
    acts (.send job :: rest) = .send job :: acts (job ++ rest) := by
  simp only [acts, spreadOf, Act.spread, List.cons_append, upTo, Act.isCrash, Bool.false_eq_true,
    if_false, spreadOf_append]

theorem crashes_send (job rest : Job) : crashes (.send job :: rest) = crashes (job ++ rest) := by
  simp [crashes, spreadOf, Act.spread, Act.isCrash, spreadOf_append]

end Job

mutual
theorem Act.through_run (a : Act) (l : Loop) : (a.run l).2 = !a.spread.any Act.isCrash := by
  cases a with
  | send job => simpa [Act.run, Act.spread, Act.isCrash, Job.crashes] using through_runJob job l
  | crash => rfl
  | _ => rfl
termination_by structural a

theorem through_runJob (job : List Act) (l : Loop) : (runJob job l).2 = !Job.crashes job := by
  cases job with
  | nil => rfl
  | cons a rest =>
    have hact := a.through_run l
    simp only [runJob, Job.crashes, spreadOf, List.any_append]
    cases hrun : a.run l with
    | mk l' through =>
      rw [hrun] at hact
      cases through with
      | false => simp [Bool.not_eq_eq_eq_not.mp hact.symm]
      | true =>
        have hrest := through_runJob rest l'
        rw [Job.crashes] at hrest
        simp [Bool.not_eq_eq_eq_not.mp hact.symm, hrest]
termination_by structural job
end

namespace Thread
namespace Report

def lined? : Report → Option Command
  | .lined c _ => some c
  | _ => none

/-- The commands that the thread has put in line itself. -/
def issued? : Report → Option Command
  | .lined c true => some c
  | _ => none

def taken? : Report → Option Command
  | .took c _ => some c
  | _ => none

/-- The jobs whose execution has begun, those of commands and those of timers. -/
def begun? : Report → Option Job
  | .took (.run job _) _ => some job
  | .fired t _ => some t.task
  | _ => none

def act? : Report → Option Act
  | .did a => some a
  | _ => none

/-- A timer is due once its delay has passed since the loop came to it. -/
def accepted? : Report → Option (Timer Job)
  | .took (.timer delay job) clock => some ⟨clock + delay, job⟩
  | _ => none

def fired? : Report → Option (Timer Job)
  | .fired t _ => some t
  | _ => none

end Report

variable {x y : Thread}

/-- The ways in which a move changes a thread, with what is reported. -/
inductive Way (x : Thread) : List Report → Loop → Option Execution → Prop where
  | stay : Way x [] x.loop x.doing
  | elapse (time : Nat) : Way x [] { x.loop with clock := x.loop.clock + time } x.doing
  | line (c : Command) (n : Nat) : x.loop.running = true →
      Way x [.lined c false]
        { x.loop with queue := x.loop.queue ++ [c], nextTicket := n } x.doing
  | drop (c : Command) (n : Nat) : x.loop.running = false →
      Way x [.dropped c] { x.loop with nextTicket := n } x.doing
  | note (tag : String) (e : Execution) : x.doing = some ⟨.note tag :: e.rest, e.origin⟩ →
      Way x [.did (.note tag)] (x.loop.noteDown ⟨tag, true⟩) (some e)
  | flush (e : Execution) : x.doing = some ⟨.flush :: e.rest, e.origin⟩ →
      Way x [.did .flush] x.loop (some e)
  | send (job : Job) (e : Execution) : x.doing = some ⟨.send job :: e.rest, e.origin⟩ →
      Way x [.did (.send job)] x.loop (some ⟨job ++ e.rest, e.origin⟩)
  | issue (a : Act) (c : Command) (e : Execution) : x.doing = some ⟨a :: e.rest, e.origin⟩ →
      a.command? = some c →
      Way x [.did a, .lined c true] { x.loop with queue := x.loop.queue ++ [c] } (some e)
  | fail (rest : Job) (ticket : Option Nat) : x.doing = some ⟨.crash :: rest, .queue ticket⟩ →
      Way x [.did .crash, .ended] x.loop.finish none
  | fault (rest : Job) : x.doing = some ⟨.crash :: rest, .timer⟩ →
      Way x [.did .crash] x.loop none
  | complete (o : Origin) (served : List Nat) : x.doing = some ⟨[], o⟩ →
      Way x [] { x.loop with served := served } none
  | start (job : Job) (ticket : Option Nat) (rest : List Command) : x.doing = none →
      x.loop.queue = .run job ticket :: rest →
      Way x [.took (.run job ticket) x.loop.clock] { x.loop with queue := rest }
        (some ⟨job, .queue ticket⟩)
  | accept (delay : Nat) (job : Job) (rest : List Command) : x.doing = none →
      x.loop.queue = .timer delay job :: rest →
      Way x [.took (.timer delay job) x.loop.clock]
        { x.loop with
          queue := rest
          timers := x.loop.timers ++ [⟨x.loop.clock + delay, job⟩] } none
  | stop (rest : List Command) : x.doing = none → x.loop.queue = .stop :: rest →
      Way x [.took .stop x.loop.clock, .ended] x.loop.finish none
  | fire (n : Nat) (t : Timer Job) : x.doing = none → x.loop.timers[n]? = some t →
      t.due ≤ x.loop.clock →
      Way x [.fired t x.loop.clock] { x.loop with timers := x.loop.timers.eraseIdx n }
        (some ⟨t.task, .timer⟩)

/-- One thread becomes another in one of these ways. -/
def Goes (x y : Thread) : Prop := ∃ new, y.log = x.log ++ new ∧ Way x new y.loop y.doing

/-- What is executed, a running loop executes. -/
def Alive (x : Thread) : Prop := ∀ e, x.doing = some e → x.loop.running = true

theorem goes_line (x : Thread) (c : Command) (n : Nat) :
    Goes x (({ x with loop := { x.loop with nextTicket := n } } : Thread).line c false) := by
  cases hrunning : x.loop.running with
  | true =>
    refine ⟨[.lined c false], by simp [Thread.line, hrunning], ?_⟩
    simpa [Thread.line, Loop.enqueue, hrunning] using Way.line c n hrunning
  | false =>
    refine ⟨[.dropped c], by simp [Thread.line, hrunning], ?_⟩
    simpa [Thread.line, Loop.enqueue, hrunning] using Way.drop c n hrunning

theorem goes_perform (h : x.Alive) {a : Act} {e : Execution}
    (hdoing : x.doing = some ⟨a :: e.rest, e.origin⟩) : Goes x (x.perform a e) := by
  have hrunning := h _ hdoing
  have hissue : ∀ c, a.command? = some c →
      Goes x ((Thread.mk x.loop (some e) (x.log ++ [.did a])).line c true) := by
    intro c hc
    refine ⟨[.did a, .lined c true], by simp [Thread.line, hrunning], ?_⟩
    simpa [Thread.line, Loop.enqueue, hrunning] using Way.issue a c e hdoing hc
  cases a with
  | note tag => exact ⟨_, rfl, .note tag e hdoing⟩
  | flush => exact ⟨_, rfl, .flush e hdoing⟩
  | send job => exact ⟨_, rfl, .send job e hdoing⟩
  | post job => exact hissue _ rfl
  | timer delay job => exact hissue _ rfl
  | stop => exact hissue _ rfl
  | crash =>
    obtain ⟨rest, o⟩ := e
    cases o with
    | queue ticket =>
      exact ⟨[.did .crash, .ended], by simp [perform, crash, finish], .fail rest ticket hdoing⟩
    | timer => exact ⟨_, rfl, .fault rest hdoing⟩

theorem goes_take {c : Command} {rest : List Command} (hdoing : x.doing = none)
    (hqueue : x.loop.queue = c :: rest) : Goes x (x.take c rest) := by
  cases c with
  | run job ticket => exact ⟨_, rfl, .start job ticket rest hdoing hqueue⟩
  | timer delay job =>
    refine ⟨_, rfl, ?_⟩
    have hnone : (x.take (.timer delay job) rest).doing = none := hdoing
    rw [hnone]
    exact .accept delay job rest hdoing hqueue
  | stop =>
    exact ⟨[.took .stop x.loop.clock, .ended], by simp [take, finish], .stop rest hdoing hqueue⟩

theorem goes_turn (h : x.Alive) : Goes x (x.turn?.getD x) := by
  unfold turn?
  split
  · rename_i a rest o hdoing
    exact goes_perform h (e := ⟨rest, o⟩) hdoing
  · rename_i o hdoing
    cases o with
    | queue ticket => exact ⟨[], (List.append_nil _).symm, .complete _ _ hdoing⟩
    | timer => exact ⟨[], (List.append_nil _).symm, .complete _ x.loop.served hdoing⟩
  · rename_i hdoing
    split
    · exact ⟨[], (List.append_nil _).symm, .stay⟩
    · rename_i hqueue
      exact goes_take hdoing hqueue

theorem goes_fire (x : Thread) (n : Nat) : Goes x ((x.fire? n).getD x) := by
  unfold fire?
  split
  · rename_i t hdoing ht
    split
    · rename_i hdue
      exact ⟨_, rfl, .fire n t hdoing ht hdue⟩
    · exact ⟨[], (List.append_nil _).symm, .stay⟩
  · exact ⟨[], (List.append_nil _).symm, .stay⟩

theorem goes_move (h : x.Alive) (m : Move) : Goes x (x.move m) := by
  cases m with
  | post job => exact goes_line x _ x.loop.nextTicket
  | send job => exact goes_line x _ _
  | timer delay job => exact goes_line x _ x.loop.nextTicket
  | stop => exact goes_line x _ x.loop.nextTicket
  | turn => exact goes_turn h
  | fire n => exact goes_fire x n
  | elapse time => exact ⟨[], (List.append_nil _).symm, .elapse time⟩

/-! ## The line -/

def lined (x : Thread) : List Command := x.log.filterMap Report.lined?

def taken (x : Thread) : List Command := x.log.filterMap Report.taken?

/-- What is left of the job of a command. -/
def Execution.command? (e : Execution) : Option Job :=
  match e.origin with
  | .queue _ => some e.rest
  | .timer => none

/-- No command ends the loop, apart from the last one if its job is still executed and about to. -/
def Clean (cs : List Command) : Option Job → Prop
  | none => ∀ c ∈ cs, c.ends = false
  | some rest => ∃ front c, cs = front ++ [c] ∧ (∀ b ∈ front, b.ends = false) ∧
      c.ends = Job.crashes rest

/-- A loop that has not ended: what is in line has been taken or stands in the queue. -/
structure Underway (x : Thread) : Prop where
  running : x.loop.running = true
  line : x.lined = x.taken ++ x.loop.queue
  clean : Clean x.taken (x.doing.bind Execution.command?)
  unended : .ended ∉ x.log

/-- A loop that has ended, with the last command taken. Whatever has come since was dropped. -/
structure Over (x : Thread) : Prop where
  running : x.loop.running = false
  doing : x.doing = none
  queue : x.loop.queue = []
  timers : x.loop.timers = []
  last : ∃ front c, x.taken = front ++ [c] ∧ (∀ b ∈ front, b.ends = false) ∧ c.ends = true
  line : x.taken <+: x.lined
  after : ∃ before after, x.log = before ++ .ended :: after ∧ .ended ∉ before ∧
    ∀ r ∈ after, ∃ c, r = .dropped c

theorem Underway.alive (h : x.Underway) : x.Alive := fun _ _ => h.running

theorem Over.alive (h : x.Over) : x.Alive := by
  intro e he
  rw [h.doing] at he
  cases he

section
variable {new : List Report} {l : Loop} {d : Option Execution}

theorem lined_append :
    (Thread.mk l d (x.log ++ new)).lined = x.lined ++ new.filterMap Report.lined? :=
  List.filterMap_append

theorem taken_append :
    (Thread.mk l d (x.log ++ new)).taken = x.taken ++ new.filterMap Report.taken? :=
  List.filterMap_append

theorem Underway.goOn (h : x.Underway) (hrunning : l.running = true)
    (htaken : new.filterMap Report.taken? = [])
    (hqueue : l.queue = x.loop.queue ++ new.filterMap Report.lined?)
    (hclean : Clean x.taken (x.doing.bind Execution.command?) →
      Clean x.taken (d.bind Execution.command?)) (hended : .ended ∉ new) :
    Underway ⟨l, d, x.log ++ new⟩ := by
  refine ⟨hrunning, ?_, ?_, by simp [h.unended, hended]⟩
  · rw [lined_append, taken_append, htaken, h.line, hqueue, List.append_nil, List.append_assoc]
  · rw [taken_append, htaken, List.append_nil]
    exact hclean h.clean

theorem Underway.takes (h : x.Underway) {c : Command} {rest : List Command}
    (hdoing : x.doing = none) (hqueue : x.loop.queue = c :: rest) (hrunning : l.running = true)
    (hl : l.queue = rest)
    (hclean : (∀ b ∈ x.taken, b.ends = false) →
      Clean (x.taken ++ [c]) (d.bind Execution.command?)) :
    Underway ⟨l, d, x.log ++ [.took c x.loop.clock]⟩ := by
  have hidle := h.clean
  rw [hdoing] at hidle
  refine ⟨hrunning, ?_, ?_, by simp [h.unended]⟩
  · rw [lined_append, taken_append, h.line, hqueue, hl]
    simp [Report.lined?, Report.taken?]
  · rw [taken_append]
    exact hclean hidle

theorem Underway.ends (h : x.Underway) (new : List Report) {front : List Command} {c : Command}
    (hlined : new.filterMap Report.lined? = []) (hended : .ended ∉ new)
    (htaken : x.taken ++ new.filterMap Report.taken? = front ++ [c])
    (hfront : ∀ b ∈ front, b.ends = false) (hc : c.ends = true) (hline : front ++ [c] <+: x.lined) :
    Over ⟨x.loop.finish, none, x.log ++ (new ++ [.ended])⟩ := by
  have hlast :
      (Thread.mk x.loop.finish none (x.log ++ (new ++ [.ended]))).taken = front ++ [c] := by
    rw [taken_append, List.filterMap_append, ← List.append_assoc, htaken]
    exact List.append_nil _
  have hall : (Thread.mk x.loop.finish none (x.log ++ (new ++ [.ended]))).lined = x.lined := by
    rw [lined_append, List.filterMap_append, hlined]
    exact List.append_nil _
  refine ⟨rfl, rfl, rfl, rfl, ⟨front, c, hlast, hfront, hc⟩, ?_, x.log ++ new, [], ?_, ?_, by simp⟩
  · rw [hlast, hall]
    exact hline
  · simp
  · simp [h.unended, hended]

end

theorem Underway.goes {new : List Report} {l : Loop} {d : Option Execution} (h : x.Underway)
    (hway : Way x new l d) :
    Underway ⟨l, d, x.log ++ new⟩ ∨ Over ⟨l, d, x.log ++ new⟩ := by
  -- An act is done: what is left of the job ends the loop if the job did before.
  have hkept : ∀ {a : Act} {e : Execution} {rest : Job},
      x.doing = some ⟨a :: e.rest, e.origin⟩ → Job.crashes (a :: e.rest) = Job.crashes rest →
      Clean x.taken (x.doing.bind Execution.command?) →
      Clean x.taken ((some (Execution.mk rest e.origin)).bind Execution.command?) := by
    intro a e rest hdoing hcrashes hclean
    rw [hdoing] at hclean
    cases ho : e.origin with
    | timer => simpa [Execution.command?, ho] using hclean
    | queue ticket =>
      simp only [Option.bind_some, Execution.command?, ho] at hclean ⊢
      obtain ⟨front, c, htaken, hfront, hc⟩ := hclean
      exact ⟨front, c, htaken, hfront, hc.trans hcrashes⟩
  cases hway with
  | stay => exact Or.inl (h.goOn h.running rfl (by simp) (fun hclean => hclean) (by simp))
  | elapse time => exact Or.inl (h.goOn h.running rfl (by simp) (fun hclean => hclean) (by simp))
  | line c n _ => exact Or.inl (h.goOn h.running rfl rfl (fun hclean => hclean) (by simp))
  | drop c n hstopped =>
    rw [h.running] at hstopped
    cases hstopped
  | note tag e hdoing =>
    exact Or.inl (h.goOn h.running rfl (List.append_nil _).symm (hkept hdoing rfl) (by simp))
  | flush e hdoing =>
    exact Or.inl (h.goOn h.running rfl (List.append_nil _).symm (hkept hdoing rfl) (by simp))
  | send job e hdoing =>
    exact Or.inl (h.goOn h.running rfl (List.append_nil _).symm
      (hkept hdoing (Job.crashes_send job e.rest)) (by simp))
  | issue a c e hdoing hc =>
    refine Or.inl (h.goOn h.running rfl rfl (hkept hdoing ?_) (by simp))
    cases a <;> first | rfl | cases hc
  | fault rest hdoing =>
    refine Or.inl (h.goOn h.running rfl (List.append_nil _).symm ?_ (by simp))
    rw [hdoing]
    exact fun hclean => hclean
  | complete o served hdoing =>
    refine Or.inl (h.goOn h.running rfl (List.append_nil _).symm ?_ (by simp))
    rw [hdoing]
    cases o with
    | timer => exact fun hclean => hclean
    | queue ticket =>
      rintro ⟨front, c, htaken, hfront, hc⟩ b hb
      rw [htaken] at hb
      rcases List.mem_append.mp hb with hb | hb
      · exact hfront b hb
      · rw [List.mem_singleton.mp hb]
        exact hc
  | fail rest ticket hdoing =>
    right
    have hclean := h.clean
    rw [hdoing] at hclean
    obtain ⟨front, c, htaken, hfront, hc⟩ := hclean
    refine h.ends [.did .crash] rfl (by simp) ?_ hfront hc ?_
    · exact (List.append_nil _).trans htaken
    · rw [h.line, htaken]
      exact List.prefix_append _ _
  | start job ticket rest hdoing hqueue =>
    exact Or.inl (h.takes hdoing hqueue h.running rfl fun hidle => ⟨x.taken, _, rfl, hidle, rfl⟩)
  | accept delay job rest hdoing hqueue =>
    refine Or.inl (h.takes hdoing hqueue h.running rfl fun hidle => ?_)
    intro c hc
    rcases List.mem_append.mp hc with hc | hc
    · exact hidle c hc
    · rw [List.mem_singleton.mp hc]
      rfl
  | stop rest hdoing hqueue =>
    right
    have hidle := h.clean
    rw [hdoing] at hidle
    refine h.ends [.took .stop x.loop.clock] rfl (by simp) rfl hidle rfl ?_
    rw [h.line, hqueue]
    exact ⟨rest, by simp⟩
  | fire n t hdoing _ _ =>
    refine Or.inl (h.goOn h.running rfl (List.append_nil _).symm ?_ (by simp))
    rw [hdoing]
    exact fun hclean => hclean

theorem Over.goes {new : List Report} {l : Loop} {d : Option Execution} (h : x.Over)
    (hway : Way x new l d) : Over ⟨l, d, x.log ++ new⟩ := by
  have hbusy : ∀ {e}, x.doing ≠ some e := by
    intro e he
    rw [h.doing] at he
    cases he
  have hempty : ∀ {c rest}, x.loop.queue ≠ c :: rest := by
    intro c rest hqueue
    rw [h.queue] at hqueue
    cases hqueue
  cases hway with
  | stay =>
    rw [List.append_nil]
    exact h
  | elapse time =>
    rw [List.append_nil]
    exact ⟨h.running, h.doing, h.queue, h.timers, h.last, h.line, h.after⟩
  | line c n hrunning =>
    rw [h.running] at hrunning
    cases hrunning
  | drop c n _ =>
    obtain ⟨before, after, hlog, hbefore, hafter⟩ := h.after
    refine ⟨h.running, h.doing, h.queue, h.timers, ?_, ?_, before, after ++ [.dropped c], ?_,
      hbefore, ?_⟩
    · rw [taken_append]
      obtain ⟨front, c, htaken, hclean⟩ := h.last
      exact ⟨front, c, (List.append_nil _).trans htaken, hclean⟩
    · rw [taken_append, lined_append]
      change x.taken ++ [] <+: x.lined ++ []
      simpa using h.line
    · simp [hlog]
    · intro r hr
      rcases List.mem_append.mp hr with hr | hr
      · exact hafter r hr
      · exact ⟨c, List.mem_singleton.mp hr⟩
  | note tag e hdoing => exact absurd hdoing hbusy
  | flush e hdoing => exact absurd hdoing hbusy
  | send job e hdoing => exact absurd hdoing hbusy
  | issue a c e hdoing _ => exact absurd hdoing hbusy
  | fault rest hdoing => exact absurd hdoing hbusy
  | complete o served hdoing => exact absurd hdoing hbusy
  | fail rest ticket hdoing => exact absurd hdoing hbusy
  | start job ticket rest _ hqueue => exact absurd hqueue hempty
  | accept delay job rest _ hqueue => exact absurd hqueue hempty
  | stop rest _ hqueue => exact absurd hqueue hempty
  | fire n t _ ht _ =>
    rw [h.timers] at ht
    cases ht

theorem underway_or_over (moves : List Move) : (run moves).Underway ∨ (run moves).Over := by
  refine List.foldlRecOn (motive := fun x => x.Underway ∨ x.Over) moves move (Or.inl ?_) ?_
  · exact ⟨rfl, rfl, by simp [Clean, taken], by simp⟩
  · intro x hx m _
    have halive : x.Alive := hx.elim Underway.alive Over.alive
    obtain ⟨new, hlog, hway⟩ := goes_move halive m
    have hy : x.move m = ⟨(x.move m).loop, (x.move m).doing, x.log ++ new⟩ := by rw [← hlog]
    rw [hy]
    rcases hx with hunderway | hover
    · exact hunderway.goes hway
    · exact Or.inr (hover.goes hway)

theorem alive_run (moves : List Move) : (run moves).Alive :=
  (underway_or_over moves).elim Underway.alive Over.alive

theorem run_concat (moves : List Move) (m : Move) : run (moves ++ [m]) = (run moves).move m := by
  simp only [run, List.foldl_append, List.foldl_cons, List.foldl_nil]

/-- What the start has and every way preserves, any moves preserve. -/
theorem run_induction {P : Thread → Prop} (hstart : P {})
    (hstep : ∀ {x new l d}, P x → Way x new l d → P ⟨l, d, x.log ++ new⟩) (moves : List Move) :
    P (run moves) := by
  induction moves using List.reverseRecOn with
  | nil => exact hstart
  | append_singleton moves m ih =>
    obtain ⟨new, hlog, hway⟩ := goes_move (alive_run moves) m
    have hnext := hstep ih hway
    rw [← hlog] at hnext
    rw [run_concat]
    exact hnext

/-! ## The cut-off -/

theorem upTo_of_last {α : Type} {p : α → Bool} {front : List α} {a : α} {more : List α}
    (hfront : ∀ b ∈ front, p b = false) (ha : p a = true) :
    upTo p (front ++ [a] ++ more) = front ++ [a] := by
  rw [List.append_assoc, upTo_append_of_none _ hfront]
  simp [upTo, ha]

/-- The commands that a loop has come to stand in front of the line, none behind the first that
ends the loop. -/
theorem taken_prefix (moves : List Move) :
    (run moves).taken <+: upTo Command.ends (run moves).lined := by
  rcases underway_or_over moves with hunderway | hover
  · rw [hunderway.line]
    have hclean := hunderway.clean
    cases hjob : (run moves).doing.bind Execution.command? with
    | none =>
      rw [hjob] at hclean
      rw [upTo_append_of_none _ hclean]
      exact List.prefix_append _ _
    | some rest =>
      rw [hjob] at hclean
      obtain ⟨front, c, htaken, hfront, _⟩ := hclean
      rw [htaken, List.append_assoc, upTo_append_of_none _ hfront, List.prefix_append_right_inj,
        List.singleton_append, upTo]
      split
      · exact List.prefix_refl _
      · exact List.prefix_append [c] _
  · obtain ⟨front, c, htaken, hfront, hc⟩ := hover.last
    obtain ⟨more, hlined⟩ := hover.line
    rw [← hlined, htaken]
    exact ⟨[], by rw [upTo_of_last hfront hc, List.append_nil]⟩

theorem taken_at_rest {moves : List Move} (h : (run moves).turn? = none) :
    (run moves).taken = upTo Command.ends (run moves).lined := by
  rcases underway_or_over moves with hunderway | hover
  · have hidle := idle_of_rest h
    have hclean := hunderway.clean
    rw [hidle.1] at hclean
    rw [hunderway.line, hidle.2, upTo_append_of_none _ hclean]
    exact (List.append_nil _).symm
  · obtain ⟨front, c, htaken, hfront, hc⟩ := hover.last
    obtain ⟨more, hlined⟩ := hover.line
    rw [← hlined, htaken, upTo_of_last hfront hc]

/-- A loop ends with a command that ends it; from then on calls are dropped and nothing else
happens. -/
theorem ended_last {moves : List Move} {before after : List Report}
    (h : (run moves).log = before ++ .ended :: after) :
    (∃ c, (before.filterMap Report.taken?).getLast? = some c ∧ c.ends = true) ∧
      ∀ r ∈ after, ∃ c, r = .dropped c := by
  rcases underway_or_over moves with hunderway | hover
  · have hmem : .ended ∈ (run moves).log := by simp [h]
    exact absurd hmem hunderway.unended
  · obtain ⟨front, late, hlog, hfront, hlate⟩ := hover.after
    have hunended : .ended ∉ late := by
      intro hmem
      obtain ⟨c, hc⟩ := hlate _ hmem
      cases hc
    rw [hlog] at h
    obtain ⟨rfl, -, rfl⟩ :=
      (List.append_cons_inj_of_notMem hfront hunended).mp h
    obtain ⟨earlier, c, htaken, _, hc⟩ := hover.last
    have hdropped : late.filterMap Report.taken? = [] := by
      rw [List.filterMap_eq_nil_iff]
      intro r hr
      obtain ⟨c, rfl⟩ := hlate r hr
      rfl
    have hbefore : front.filterMap Report.taken? = earlier ++ [c] := by
      rw [← htaken, taken, hlog, List.filterMap_append, List.filterMap_cons_none rfl, hdropped,
        List.append_nil]
    exact ⟨⟨c, by rw [hbefore, List.getLast?_concat], hc⟩, hlate⟩

theorem ended_iff (moves : List Move) :
    .ended ∈ (run moves).log ↔ (run moves).loop.running = false := by
  rcases underway_or_over moves with hunderway | hover
  · simp [hunderway.unended, hunderway.running]
  · obtain ⟨before, after, hlog, _⟩ := hover.after
    simp [hlog, hover.running]

end Thread
end MediaRelay
