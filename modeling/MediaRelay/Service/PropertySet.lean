/-! # Property sets

The values of evented state variables, in the order in which they were written. A name may be
written more than once; a look-up finds the first value.
-/
namespace MediaRelay

structure PropertySet where
  properties : List (String × String) := []
deriving DecidableEq

namespace PropertySet

def empty : PropertySet := ⟨[]⟩

def add (s : PropertySet) (name value : String) : PropertySet :=
  ⟨s.properties ++ [(name, value)]⟩

def get? (s : PropertySet) (name : String) : Option String :=
  (s.properties.find? fun p => p.1 = name).map Prod.snd

def size (s : PropertySet) : Nat := s.properties.length

def rebuilt (s : PropertySet) : PropertySet :=
  s.properties.foldl (fun t p => t.add p.1 p.2) empty

end PropertySet
end MediaRelay
