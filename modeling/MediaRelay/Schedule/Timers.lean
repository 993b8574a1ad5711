/-! # One-shot timers

Pending timers in the order in which they were accepted. They fire by due time; of two that are due
at the same time, the one accepted first.
-/
namespace MediaRelay

/-- A task and the time in milliseconds at which it is due. -/
structure Timer (τ : Type) where
  due : Nat
  task : τ

namespace Timer
variable {τ : Type}

/-- The timer that fires next, and all others. -/
def earliest? : List (Timer τ) → Option (Timer τ × List (Timer τ))
  | [] => none
  | t :: rest =>
    match earliest? rest with
    | none => some (t, rest)
    | some (u, others) => if t.due ≤ u.due then some (t, rest) else some (u, t :: others)

end Timer
end MediaRelay
