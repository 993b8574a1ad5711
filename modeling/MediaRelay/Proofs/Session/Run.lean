import MediaRelay.Session.Play

/-! # Runs of a session

What a session leaves behind is one relay, and everything that is reported later depends on the
steps so far through this relay alone.
-/
namespace MediaRelay.Session

def next (live : Bool) (r : Relay) (s : Step) : Relay :=
  let r := (take r s).2
  reported (if live then r.drain else r).settle

def after (live : Bool) (steps : List Step) : Relay := steps.foldl (next live) {}

theorem playFrom_append (live : Bool) (r : Relay) (steps more : List Step) :
    playFrom live r (steps ++ more) =
      playFrom live r steps ++ playFrom live (steps.foldl (next live) r) more := by
  induction steps generalizing r with
  | nil => rfl
  | cons s rest ih =>
    simp only [List.cons_append, playFrom, List.foldl_cons]
    rw [ih]
    rfl

theorem play_append (live : Bool) (steps more : List Step) :
    play live (steps ++ more) = play live steps ++ playFrom live (after live steps) more :=
  playFrom_append live {} steps more

end MediaRelay.Session
