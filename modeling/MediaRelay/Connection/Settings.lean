import MediaRelay.Stream.Sizing

/-! # Settings of a registry -/
namespace MediaRelay

structure Settings where
  /-- How long, in milliseconds, a new source is kept for others to join. -/
  dedupWindow : Nat := 10000
  sizing : Sizing := {}
deriving DecidableEq

def Settings.withDedupWindow (c : Settings) (window : Nat) : Settings :=
  { c with dedupWindow := window }

def Settings.withSizing (c : Settings) (z : Sizing) : Settings := { c with sizing := z }

end MediaRelay
