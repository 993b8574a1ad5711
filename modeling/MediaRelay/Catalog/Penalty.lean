import MediaRelay.Protocol.Basic
import MediaRelay.Total

/-! # Penalties

How far a declared protocol is from what is asked for. Each test on its own counts a mismatch; the
penalty of a protocol is the sum of the tests that apply to its kind.
-/
namespace MediaRelay.Penalty

def videoWidths : List Nat := [1280, 876, 640, 352]

/-- A video up to this width is of low resolution. -/
def videoSmall : Nat := 352

def imageWidths : List Nat := [1024, 640, 160]

def imageHeights : List Nat := [768, 480, 160]

def thumbnail : Nat := 160

/-- Distances in frame rate, with what each adds once it is exceeded. -/
def frameRateSteps : List (Float32 × Nat) := [(0.01, 2), (0.3, 4), (2.0, 8)]

/-- The cost of stereo in place of surround, or the other way round. -/
def layout : Nat := 2

/-- The cost of each class boundary between two sizes. -/
def resolution : Nat := 1

def channels (offered requested : Nat) : Nat :=
  if decide (2 < offered) = decide (2 < requested) then 0 else layout

/-- One step for each threshold that has the two sizes on different sides, and one more when only
one of them is small. -/
def sizeClass (thresholds : List Nat) (small : Nat) (offered requested : Nat) : Nat :=
  let above := thresholds.countP fun t => decide (t < offered) != decide (t < requested)
  let edge := (decide (offered ≤ small) != decide (requested ≤ small)).toNat
  (above + edge) * resolution

/-- A distance that is no number exceeds nothing. -/
def frameRate (offered requested : Float32) : Nat :=
  let distance := (offered - requested).abs
  total (fun s => if s.1 < distance then s.2 else 0) frameRateSteps

end MediaRelay.Penalty
