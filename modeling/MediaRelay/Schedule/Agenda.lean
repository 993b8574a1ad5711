import MediaRelay.Schedule.Timers

/-! # Agendas

The tasks still to be run on one thread: a queue in the order of posting, and one-shot timers on a
clock that moves only when told to. A stopped agenda has no tasks and takes none.
-/
namespace MediaRelay

structure Agenda (τ : Type) where
  queue : List τ := []
  timers : List (Timer τ) := []
  clock : Nat := 0
  stopped : Bool := false

namespace Agenda
variable {τ : Type}

def post (a : Agenda τ) (task : τ) : Agenda τ :=
  if a.stopped then a else { a with queue := a.queue ++ [task] }

def postAll (a : Agenda τ) (tasks : List τ) : Agenda τ := tasks.foldl post a

/-- The task is due once the delay has passed, counted from now. -/
def timer (a : Agenda τ) (delay : Nat) (task : τ) : Agenda τ :=
  if a.stopped then a else { a with timers := a.timers ++ [⟨a.clock + delay, task⟩] }

def stop (a : Agenda τ) : Agenda τ := { a with queue := [], timers := [], stopped := true }

def next? (a : Agenda τ) : Option (τ × Agenda τ) :=
  match a.queue with
  | [] => none
  | task :: rest => some (task, { a with queue := rest })

/-- The timer that fires next, if it is due by the given time; the clock moves to its due time. -/
def due? (a : Agenda τ) (limit : Nat) : Option (τ × Agenda τ) :=
  match Timer.earliest? a.timers with
  | none => none
  | some (t, others) =>
    if t.due ≤ limit then some (t.task, { a with timers := others, clock := t.due }) else none

end Agenda
end MediaRelay
