/-! # Failures of inputs

The failure of an input is known by its kind and a message, and so is what the system answers when
it has no thread to read an input on. An interruption asks for another try and is never reported;
every other failure ends the input.
-/
namespace MediaRelay

structure InputFailure where
  kind : String
  message : String
deriving DecidableEq

namespace InputFailure

def isInterruption (f : InputFailure) : Bool := f.kind = "Interrupted"

def attachRefused : InputFailure := ⟨"Other", "fresh source refused attach"⟩

end InputFailure

end MediaRelay
