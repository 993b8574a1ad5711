import MediaRelay.Schedule.Script
import Mathlib.Logic.Relation

/-! # The thread of a message loop, act by act

Others call on a loop at any time, so also between two acts of a job that its thread is executing.
Here the thread performs one act at a turn, and calls from outside, the passing of time and the
firing of timers come in between as they like. A job that is sent from the thread itself is executed
on the spot: its acts come before those that are left. A log tells what has happened. A thread that
nobody interferes with does what the loop does.
-/
namespace MediaRelay

def Act.command? : Act → Option Command
  | .post job => some (.run job none)
  | .timer delay job => some (.timer delay job)
  | .stop => some .stop
  | _ => none

namespace Thread

/-- Where a job that is executed comes from. -/
inductive Origin where
  | queue (ticket : Option Nat)
  | timer

/-- A job that is executed, with the acts that are left of it. -/
structure Execution where
  rest : Job
  origin : Origin

inductive Report where
  /-- A command was put in line, by the thread itself or from outside. -/
  | lined (c : Command) (inside : Bool)
  /-- A command came to a loop that had ended. -/
  | dropped (c : Command)
  /-- The loop came to a command, at this time. -/
  | took (c : Command) (clock : Nat)
  | fired (t : Timer Job) (clock : Nat)
  | did (a : Act)
  | ended

inductive Move where
  | post (job : Job)
  | send (job : Job)
  | timer (delay : Nat) (job : Job)
  | stop
  /-- The thread goes on with what it is executing, or with the next command. -/
  | turn
  /-- One of the timers fires. -/
  | fire (n : Nat)
  | elapse (time : Nat)

end Thread

structure Thread where
  loop : Loop := {}
  doing : Option Thread.Execution := none
  log : List Thread.Report := []

namespace Thread

def line (x : Thread) (c : Command) (inside : Bool) : Thread :=
  { x with
    loop := x.loop.enqueue c
    log := x.log ++ [if x.loop.running then .lined c inside else .dropped c] }

def finish (x : Thread) : Thread :=
  { x with loop := x.loop.finish, doing := none, log := x.log ++ [.ended] }

/-- A job that has come to its end; whoever waits for it is told. -/
def complete (x : Thread) : Origin → Thread
  | .queue ticket =>
    { x with loop := { x.loop with served := x.loop.served ++ ticket.toList }, doing := none }
  | .timer => { x with doing := none }

/-- A job that crashes takes the loop with it, unless a timer runs it. -/
def crash (x : Thread) : Origin → Thread
  | .queue _ => x.finish
  | .timer => { x with doing := none }

/-- Performs an act, with what is left behind it. -/
def perform (x : Thread) (a : Act) (e : Execution) : Thread :=
  let x : Thread := { x with doing := some e, log := x.log ++ [.did a] }
  match a with
  | .note tag => { x with loop := x.loop.noteDown ⟨tag, true⟩ }
  | .post job => x.line (.run job none) true
  | .send job => { x with doing := some { e with rest := job ++ e.rest } }
  | .timer delay job => x.line (.timer delay job) true
  | .flush => x
  | .stop => x.line .stop true
  | .crash => x.crash e.origin

def take (x : Thread) (c : Command) (rest : List Command) : Thread :=
  let x : Thread := { x with
    loop := { x.loop with queue := rest }
    log := x.log ++ [.took c x.loop.clock] }
  match c with
  | .run job ticket => { x with doing := some ⟨job, .queue ticket⟩ }
  | .timer delay job =>
    { x with loop := { x.loop with timers := x.loop.timers ++ [⟨x.loop.clock + delay, job⟩] } }
  | .stop => x.finish

def turn? (x : Thread) : Option Thread :=
  match x.doing with
  | some ⟨a :: rest, o⟩ => some (x.perform a ⟨rest, o⟩)
  | some ⟨[], o⟩ => some (x.complete o)
  | none =>
    match x.loop.queue with
    | [] => none
    | c :: rest => some (x.take c rest)

/-- A timer fires when it is due and nothing else is being executed. -/
def fire? (x : Thread) (n : Nat) : Option Thread :=
  match x.doing, x.loop.timers[n]? with
  | none, some t =>
    if t.due ≤ x.loop.clock then
      some { x with
        loop := { x.loop with timers := x.loop.timers.eraseIdx n }
        doing := some ⟨t.task, .timer⟩
        log := x.log ++ [.fired t x.loop.clock] }
    else none
  | _, _ => none

def move (x : Thread) : Move → Thread
  | .post job => x.line (.run job none) false
  | .send job =>
    let ticket := x.loop.nextTicket
    { x with loop := { x.loop with nextTicket := ticket + 1 } }.line (.run job (some ticket)) false
  | .timer delay job => x.line (.timer delay job) false
  | .stop => x.line .stop false
  | .turn => x.turn?.getD x
  | .fire n => (x.fire? n).getD x
  | .elapse time => { x with loop := { x.loop with clock := x.loop.clock + time } }

/-- The thread of a new loop, after any moves. -/
def run (moves : List Move) : Thread := moves.foldl move {}

/-! ## A thread left alone -/

def Leads : Thread → Thread → Prop := Relation.ReflTransGen fun x y => x.turn? = some y

variable {x y : Thread}

theorem Leads.turn (h : x.turn? = some y) : Leads x y := .single h

theorem idle_of_rest (h : x.turn? = none) : x.doing = none ∧ x.loop.queue = [] := by
  unfold turn? at h
  split at h
  · cases h
  · cases h
  · rename_i hdoing
    split at h
    · rename_i hqueue
      exact ⟨hdoing, hqueue⟩
    · cases h

/-- Where the thread stands after a job, or a part of it, with what is left behind it: it goes on
with that, or it has dropped everything. -/
def After (e : Execution) (done : Loop × Bool) (y : Thread) : Prop :=
  if done.2 then y.loop = done.1 ∧ y.doing = some e
  else y.doing = none ∧
    y.loop = match e.origin with
      | .queue _ => done.1.finish
      | .timer => done.1

mutual
theorem leads_act (a : Act) (x : Thread) (e : Execution)
    (h : x.doing = some ⟨a :: e.rest, e.origin⟩) :
    ∃ y, Leads x y ∧ After e (a.run x.loop) y := by
  have hturn : x.turn? = some (x.perform a e) := by simp only [turn?, h]
  cases a with
  | send job =>
    obtain ⟨y, hy, hafter⟩ := leads_job job (x.perform (.send job) e) e rfl
    exact ⟨y, (Leads.turn hturn).trans hy, hafter⟩
  | crash =>
    refine ⟨_, Leads.turn hturn, ?_⟩
    cases ho : e.origin <;> simp [After, Act.run, perform, crash, finish, ho]
  | note tag => exact ⟨_, Leads.turn hturn, rfl, rfl⟩
  | post job => exact ⟨_, Leads.turn hturn, rfl, rfl⟩
  | timer delay job => exact ⟨_, Leads.turn hturn, rfl, rfl⟩
  | flush => exact ⟨_, Leads.turn hturn, rfl, rfl⟩
  | stop => exact ⟨_, Leads.turn hturn, rfl, rfl⟩
termination_by structural a

theorem leads_job (job : List Act) (x : Thread) (e : Execution)
    (h : x.doing = some ⟨job ++ e.rest, e.origin⟩) :
    ∃ y, Leads x y ∧ After e (runJob job x.loop) y := by
  cases job with
  | nil => exact ⟨x, .refl, rfl, h⟩
  | cons a rest =>
    obtain ⟨y, hy, hafter⟩ := leads_act a x ⟨rest ++ e.rest, e.origin⟩ h
    simp only [runJob]
    cases hrun : a.run x.loop with
    | mk l through =>
      rw [hrun] at hafter
      cases through with
      | false => exact ⟨y, hy, hafter⟩
      | true =>
        obtain ⟨hloop, hdoing⟩ := hafter
        obtain ⟨z, hz, hlast⟩ := leads_job rest y e hdoing
        rw [hloop] at hlast
        exact ⟨z, hy.trans hz, hlast⟩
termination_by structural job
end

theorem leads_execute {c : Command} {rest : List Command} (hdoing : x.doing = none)
    (hqueue : x.loop.queue = c :: rest) :
    ∃ y, Leads x y ∧ y.doing = none ∧ y.loop = { x.loop with queue := rest }.execute c := by
  have hturn : x.turn? = some (x.take c rest) := by simp only [turn?, hdoing, hqueue]
  cases c with
  | timer delay job => exact ⟨_, Leads.turn hturn, hdoing, rfl⟩
  | stop => exact ⟨_, Leads.turn hturn, rfl, rfl⟩
  | run job ticket =>
    let e : Execution := ⟨[], .queue ticket⟩
    have hjob : (x.take (.run job ticket) rest).doing = some ⟨job ++ e.rest, e.origin⟩ := by
      simp [take, e]
    obtain ⟨y, hy, hafter⟩ := leads_job job _ e hjob
    have hloop : (x.take (.run job ticket) rest).loop = { x.loop with queue := rest } := rfl
    rw [hloop] at hafter
    simp only [Loop.execute]
    cases hrun : runJob job { x.loop with queue := rest } with
    | mk l through =>
      rw [hrun] at hafter
      cases through with
      | false => exact ⟨y, (Leads.turn hturn).trans hy, hafter⟩
      | true =>
        obtain ⟨hl, hdone⟩ := hafter
        have hlast : y.turn? = some (y.complete (.queue ticket)) := by simp only [turn?, hdone, e]
        refine ⟨_, (Leads.turn hturn).trans (hy.trans (Leads.turn hlast)), rfl, ?_⟩
        simp only [complete, hl]

theorem leads_steps (n : Nat) (hdoing : x.doing = none) :
    ∃ y, Leads x y ∧ y.doing = none ∧ y.loop = Loop.steps n x.loop := by
  induction n generalizing x with
  | zero => exact ⟨x, .refl, hdoing, rfl⟩
  | succ n ih =>
    simp only [Loop.steps, Loop.step?]
    cases hqueue : x.loop.queue with
    | nil => exact ⟨x, .refl, hdoing, rfl⟩
    | cons c rest =>
      obtain ⟨y, hy, hdone, hloop⟩ := leads_execute hdoing hqueue
      obtain ⟨z, hz, hlast, hsteps⟩ := ih hdone
      exact ⟨z, hy.trans hz, hlast, by rw [hsteps, hloop]⟩

end Thread

/-! ## Work that comes to an end -/

theorem Loop.weight_enqueue (l : Loop) (c : Command) :
    (l.enqueue c).weight ≤ l.weight + c.weight := by
  unfold enqueue
  split
  · simp only [weight, total_append, total_cons, total_nil]
    omega
  · exact Nat.le_add_right _ _

mutual
theorem Act.weight_run (a : Act) (l : Loop) : (a.run l).1.weight ≤ l.weight + a.weight := by
  cases a with
  | send job =>
    have hjob := weight_runJob job l
    simp only [Act.run, Act.weight]
    omega
  | post job => exact l.weight_enqueue (.run job none)
  | timer delay job => exact l.weight_enqueue (.timer delay job)
  | stop => exact l.weight_enqueue .stop
  | note tag => exact Nat.le_add_right _ _
  | flush => exact Nat.le_add_right _ _
  | crash => exact Nat.le_add_right _ _
termination_by structural a

/-- A job leaves no more to be done than there has been with it. -/
theorem weight_runJob (job : List Act) (l : Loop) :
    (runJob job l).1.weight ≤ l.weight + weightOf job := by
  cases job with
  | nil => exact Nat.le_refl _
  | cons a rest =>
    have hact := a.weight_run l
    simp only [runJob, weightOf]
    cases hrun : a.run l with
    | mk l' through =>
      rw [hrun] at hact
      cases through with
      | false =>
        dsimp only at hact ⊢
        omega
      | true =>
        have hrest := weight_runJob rest l'
        dsimp only at hact hrest ⊢
        omega
termination_by structural job
end

namespace Loop
variable {l m : Loop}

theorem weight_finish (l : Loop) : l.finish.weight = 0 := rfl

theorem weight_step? (h : l.step? = some m) : m.weight < l.weight := by
  unfold step? at h
  cases hqueue : l.queue with
  | nil => simp [hqueue] at h
  | cons c rest =>
    simp only [hqueue, Option.some.injEq] at h
    have hweight : l.weight = c.weight + weight { l with queue := rest } := by
      simp only [weight, hqueue, total_cons, Nat.add_assoc]
    rw [← h, hweight]
    cases c with
    | stop =>
      simp only [execute, weight_finish, Command.weight]
      omega
    | timer delay job =>
      simp only [execute, weight, total_append, total_cons, total_nil, Command.weight]
      omega
    | run job ticket =>
      have hjob := weight_runJob job { l with queue := rest }
      simp only [execute, Command.weight]
      cases hrun : runJob job { l with queue := rest } with
      | mk done through =>
        rw [hrun] at hjob
        cases through with
        | true =>
          simp only [weight] at hjob ⊢
          omega
        | false =>
          simp only [weight_finish]
          omega

theorem queue_steps {n : Nat} (h : l.weight ≤ n) : (steps n l).queue = [] := by
  induction n generalizing l with
  | zero =>
    have hzero : total Command.weight l.queue = 0 := by
      simp only [weight] at h
      omega
    simp only [steps]
    cases hqueue : l.queue with
    | nil => rfl
    | cons c rest =>
      rw [hqueue, total_cons] at hzero
      cases c <;> simp only [Command.weight] at hzero <;> omega
  | succ n ih =>
    unfold steps
    cases hstep : l.step? with
    | none =>
      cases hqueue : l.queue with
      | nil => rfl
      | cons c rest => simp [step?, hqueue] at hstep
    | some m =>
      have hless := weight_step? hstep
      exact ih (by omega)

end Loop

namespace Thread
variable {x : Thread}

/-- The thread does what the loop does with all that is in its queue, and is then at rest. -/
theorem leads_drain (hdoing : x.doing = none) :
    ∃ y, Leads x y ∧ y.turn? = none ∧ y.loop = x.loop.drain := by
  obtain ⟨y, hy, hdone, hloop⟩ := leads_steps x.loop.weight hdoing
  have hqueue : y.loop.queue = [] := by
    rw [hloop]
    exact Loop.queue_steps (Nat.le_refl _)
  exact ⟨y, hy, by simp only [turn?, hdone, hqueue], hloop⟩

theorem leads_idle (x : Thread) : ∃ y, Leads x y ∧ y.doing = none := by
  cases hdoing : x.doing with
  | none => exact ⟨x, .refl, hdoing⟩
  | some e =>
    have hjob : x.doing = some ⟨e.rest ++ [], e.origin⟩ := by rw [List.append_nil, hdoing]
    obtain ⟨y, hy, hafter⟩ := leads_job e.rest x ⟨[], e.origin⟩ hjob
    unfold After at hafter
    split at hafter
    · have hlast : y.turn? = some (y.complete e.origin) := by simp only [turn?, hafter.2]
      refine ⟨_, hy.trans (Leads.turn hlast), ?_⟩
      cases e.origin <;> rfl
    · exact ⟨y, hy, hafter.1⟩

theorem comes_to_rest (x : Thread) :
    ∃ y, Leads x y ∧ y.turn? = none ∧ (x.doing = none → y.loop = x.loop.drain) := by
  cases hdoing : x.doing with
  | none =>
    obtain ⟨y, hy, hrest, hloop⟩ := leads_drain hdoing
    exact ⟨y, hy, hrest, fun _ => hloop⟩
  | some e =>
    obtain ⟨y, hy, hidle⟩ := leads_idle x
    obtain ⟨z, hz, hrest, _⟩ := leads_drain hidle
    exact ⟨z, hy.trans hz, hrest, fun h => by cases h⟩

end Thread

/-! ## Waiting for the timers -/

theorem Timer.earliest_getElem {τ : Type} {ts others : List (Timer τ)} {t : Timer τ}
    (h : earliest? ts = some (t, others)) : ∃ n, ts[n]? = some t ∧ ts.eraseIdx n = others := by
  induction ts generalizing t others with
  | nil => cases h
  | cons u rest ih =>
    unfold earliest? at h
    split at h
    · cases h
      exact ⟨0, rfl, rfl⟩
    · rename_i v more hrest
      split at h
      · cases h
        exact ⟨0, rfl, rfl⟩
      · cases h
        obtain ⟨n, hn, hmore⟩ := ih hrest
        exact ⟨n + 1, hn, by rw [List.eraseIdx_cons_succ, hmore]⟩

namespace Thread
variable {x y z : Thread}

def Comes (x y : Thread) : Prop := ∃ moves : List Move, moves.foldl move x = y

theorem Comes.refl (x : Thread) : Comes x x := ⟨[], rfl⟩

theorem Comes.trans (h : Comes x y) (h' : Comes y z) : Comes x z := by
  obtain ⟨moves, rfl⟩ := h
  obtain ⟨more, rfl⟩ := h'
  exact ⟨moves ++ more, List.foldl_append⟩

theorem Leads.comes (h : Leads x y) : Comes x y := by
  induction h with
  | refl => exact .refl x
  | tail _ hturn ih =>
    refine ih.trans ⟨[.turn], ?_⟩
    simp only [List.foldl_cons, List.foldl_nil, move, hturn, Option.getD_some]

theorem comes_fire {l : Loop} (hdoing : x.doing = none) (h : x.loop.fire? = some l) :
    ∃ y, Comes x y ∧ y.doing = none ∧ y.loop = l := by
  unfold Loop.fire? at h
  split at h
  · cases h
  · rename_i t others hearliest
    cases h
    obtain ⟨n, hn, hothers⟩ := Timer.earliest_getElem hearliest
    let e : Execution := ⟨[], .timer⟩
    let y : Thread :=
      { x with
        loop := { x.loop with timers := others, clock := max x.loop.clock t.due }
        doing := some ⟨t.task ++ e.rest, e.origin⟩
        log := x.log ++ [.fired t (max x.loop.clock t.due)] }
    have hclock : x.loop.clock + (t.due - x.loop.clock) = max x.loop.clock t.due := by omega
    have hfire : Comes x y := by
      refine ⟨[.elapse (t.due - x.loop.clock), .fire n], ?_⟩
      simp only [List.foldl_cons, List.foldl_nil, move, fire?, hdoing, hn, hclock,
        Nat.le_max_right, if_true, Option.getD_some, hothers, List.append_nil, y, e]
    obtain ⟨z, hz, hafter⟩ := leads_job t.task y e rfl
    unfold After at hafter
    split at hafter
    · have hlast : z.turn? = some (z.complete .timer) := by simp only [turn?, hafter.2, e]
      have hend : Leads y (z.complete .timer) := hz.trans (Leads.turn hlast)
      exact ⟨z.complete .timer, hfire.trans hend.comes, rfl, hafter.1⟩
    · exact ⟨z, hfire.trans hz.comes, hafter.1, hafter.2⟩

theorem comes_firings (n : Nat) (hdoing : x.doing = none) :
    ∃ y, Comes x y ∧ y.doing = none ∧ y.loop = Loop.firings n x.loop := by
  induction n generalizing x with
  | zero => exact ⟨x, .refl x, hdoing, rfl⟩
  | succ n ih =>
    simp only [Loop.firings]
    cases hfire : x.loop.fire? with
    | none => exact ⟨x, .refl x, hdoing, rfl⟩
    | some l =>
      obtain ⟨y, hy, hidle, rfl⟩ := comes_fire hdoing hfire
      obtain ⟨z, hz, hrest, hdrain⟩ := leads_drain hidle
      obtain ⟨w, hw, hdone, hloop⟩ := ih (idle_of_rest hrest).1
      exact ⟨w, hy.trans (hz.comes.trans hw), hdone, by rw [hloop, hdrain]⟩

theorem comes_exhaust (hdoing : x.doing = none) :
    ∃ y, Comes x y ∧ y.doing = none ∧ y.loop = x.loop.exhaust := by
  obtain ⟨y, hy, hrest, hdrain⟩ := leads_drain hdoing
  obtain ⟨z, hz, hdone, hloop⟩ := comes_firings x.loop.drain.weight (idle_of_rest hrest).1
  exact ⟨z, hy.comes.trans hz, hdone, by rw [hloop, hdrain]; rfl⟩

end Thread
end MediaRelay
