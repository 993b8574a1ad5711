import MediaRelay.Schedule.Loop

/-! # Scripts for a message loop

A script is a list of calls made on one loop from outside its thread. The loop runs whatever it can
between two calls, but timers fire only while the script waits for them.
-/
namespace MediaRelay

/-- A job that notes its tag, makes its calls, and may crash at the end. -/
def Job.ofCalls (tag : String) (calls : List Act) (crashes : Bool) : Job :=
  .note tag :: calls ++ if crashes then [.crash] else []

def Job.calls (job : Job) : Bool :=
  job.any fun
    | .note _ => false
    | .crash => false
    | _ => true

namespace Script

inductive Call where
  | post (job : Job)
  | send (job : Job)
  | timer (delay : Nat) (job : Job)
  | flush
  | stop
  /-- Waits until no timer is pending any more, and flushes. -/
  | wait
  | askThread

inductive Answer where
  | onLoop (answer : Bool)
  /-- Whether the call went through, and the notes made since they were last reported, if this call
  reports them. -/
  | result (ok : Bool) (notes : Option (List Note))

def reported (l : Loop) (ok : Bool) : Answer × Loop :=
  (.result ok (some l.notes), { l with notes := [] })

/-- A post reports the notes only if its job makes calls, a timer never does. -/
def call (l : Loop) : Call → Answer × Loop
  | .post job =>
    let l := (l.post job).drain
    if job.calls then reported l true else (.result true none, l)
  | .send job =>
    let (l, ok) := l.send job
    reported l.drain ok
  | .timer delay job => (.result true none, (l.timer delay job).drain)
  | .flush =>
    let (l, ok) := l.flush
    reported l.drain ok
  | .stop => reported l.stop true
  | .wait =>
    let (l, ok) := l.exhaust.flush
    reported l.drain ok
  | .askThread => (.onLoop false, l)

def callAll : Loop → List Call → List Answer × Loop
  | l, [] => ([], l)
  | l, c :: rest =>
    let (answer, l) := call l c
    let (answers, l) := callAll l rest
    (answer :: answers, l)

/-- The answers of all calls, and the notes left over once the loop has been stopped. -/
def play (script : List Call) : List Answer × List Note :=
  let (answers, l) := callAll {} script
  (answers, l.stop.notes)

end Script
end MediaRelay
