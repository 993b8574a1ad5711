import MediaRelay.Schedule.Timers
import MediaRelay.Total

/-! # Message loops

A message loop is a thread that runs the commands of a queue one after another. Commands come from
outside and from the jobs that the loop itself is running. A job is a list of acts; an act that is
a call on the loop takes effect as calls from the loop's own thread do: `send` runs its job on the
spot, `flush` has nothing to wait for, and `stop` only asks for the loop to end.

The loop ends at the first stop command that it comes to, or when a queued job crashes. With it end
the queue and the timers. A job run by a timer may crash without harm to the loop.
-/
namespace MediaRelay

inductive Act where
  | note (tag : String)
  | post (job : List Act)
  | send (job : List Act)
  | timer (delay : Nat) (job : List Act)
  | flush
  | stop
  | crash

abbrev Job := List Act

/-- What stands in the queue. A job that somebody outside waits for carries a ticket. -/
inductive Command where
  | run (job : Job) (ticket : Option Nat)
  | timer (delay : Nat) (job : Job)
  | stop

/-- A noted tag, and whether the note was made on the loop's thread. -/
structure Note where
  tag : String
  onLoop : Bool
deriving DecidableEq

structure Loop where
  queue : List Command := []
  timers : List (Timer Job) := []
  clock : Nat := 0
  running : Bool := true
  notes : List Note := []
  nextTicket : Nat := 0
  served : List Nat := []

mutual
/-- One for the act and one more for a timer, which is first accepted and later fires. -/
def Act.weight : Act → Nat
  | .post job => 1 + weightOf job
  | .send job => 1 + weightOf job
  | .timer _ job => 2 + weightOf job
  | .note _ => 1
  | .flush => 1
  | .stop => 1
  | .crash => 1
termination_by structural a => a

/-- The number of acts in a job, those of the jobs inside it included. -/
def weightOf : List Act → Nat
  | [] => 0
  | a :: rest => a.weight + weightOf rest
termination_by structural job => job
end

def Command.weight : Command → Nat
  | .run job _ => 1 + weightOf job
  | .timer _ job => 2 + weightOf job
  | .stop => 1

namespace Loop

/-- A command for a loop that has ended is dropped. -/
def enqueue (l : Loop) (c : Command) : Loop :=
  if l.running then { l with queue := l.queue ++ [c] } else l

def noteDown (l : Loop) (n : Note) : Loop := { l with notes := l.notes ++ [n] }

def finish (l : Loop) : Loop := { l with queue := [], timers := [], running := false }

end Loop

mutual
/-- Runs one act on the loop's thread, and tells whether it went through without a crash. -/
def Act.run : Act → Loop → Loop × Bool
  | .note tag, l => (l.noteDown ⟨tag, true⟩, true)
  | .post job, l => (l.enqueue (.run job none), true)
  | .send job, l => runJob job l
  | .timer delay job, l => (l.enqueue (.timer delay job), true)
  | .flush, l => (l, true)
  | .stop, l => (l.enqueue .stop, true)
  | .crash, l => (l, false)
termination_by structural a => a

/-- Runs the acts of a job in turn; a crash skips the rest. -/
def runJob : List Act → Loop → Loop × Bool
  | [], l => (l, true)
  | a :: rest, l =>
    match a.run l with
    | (l, true) => runJob rest l
    | (l, false) => (l, false)
termination_by structural job => job
end

namespace Loop

def execute (l : Loop) : Command → Loop
  | .run job ticket =>
    match runJob job l with
    | (l, true) => { l with served := l.served ++ ticket.toList }
    | (l, false) => l.finish
  | .timer delay job => { l with timers := l.timers ++ [⟨l.clock + delay, job⟩] }
  | .stop => l.finish

def step? (l : Loop) : Option Loop :=
  match l.queue with
  | [] => none
  | c :: rest => some ({ l with queue := rest }.execute c)

/-- Fires the timer that is due first, at its due time. -/
def fire? (l : Loop) : Option Loop :=
  match Timer.earliest? l.timers with
  | none => none
  | some (t, others) =>
    some (runJob t.task { l with timers := others, clock := max l.clock t.due }).1

/-- The acts and commands still to come; every command that is executed and every timer that fires
leaves less. -/
def weight (l : Loop) : Nat :=
  total Command.weight l.queue + total (fun t => 1 + weightOf t.task) l.timers

def steps : Nat → Loop → Loop
  | 0, l => l
  | n + 1, l =>
    match l.step? with
    | none => l
    | some l => steps n l

def drain (l : Loop) : Loop := steps l.weight l

def firings : Nat → Loop → Loop
  | 0, l => l
  | n + 1, l =>
    match l.fire? with
    | none => l
    | some l => firings n l.drain

def exhaust (l : Loop) : Loop := firings l.drain.weight l.drain

/-! ### Calls from outside the loop's thread -/

def post (l : Loop) (job : Job) : Loop := l.enqueue (.run job none)

def timer (l : Loop) (delay : Nat) (job : Job) : Loop := l.enqueue (.timer delay job)

/-- Enqueues a job and waits until it has been executed or never will be. The answer tells whether
it ran to its end. -/
def send (l : Loop) (job : Job) : Loop × Bool :=
  let ticket := l.nextTicket
  let l := ({ l with nextTicket := ticket + 1 }.enqueue (.run job (some ticket))).drain
  (l, l.served.contains ticket)

def flush (l : Loop) : Loop × Bool := l.send []

def stop (l : Loop) : Loop := (l.enqueue .stop).drain

end Loop
end MediaRelay
