/-! # Descriptions of services

The actions of a service with their arguments, and its table of state variables, in the order of
their declaration. Names may repeat; a look-up finds the first.
-/
namespace MediaRelay

inductive ArgumentDirection where
  | input
  | output
deriving DecidableEq

def ArgumentDirection.render : ArgumentDirection → String
  | input => "in"
  | output => "out"

structure Argument where
  name : String
  direction : ArgumentDirection
  /-- The state variable that gives the argument its type. -/
  variableName : String
deriving DecidableEq

structure Action where
  name : String
  arguments : List Argument
deriving DecidableEq

structure StateVariable where
  name : String
  dataType : String
  sendsEvents : Bool
  /-- No values at all mean that any value is allowed. -/
  allowed : List String
deriving DecidableEq

structure ServiceDescription where
  actions : List Action := []
  «variables» : List StateVariable := []

namespace ServiceDescription

def addAction (d : ServiceDescription) (a : Action) : ServiceDescription :=
  { d with actions := d.actions ++ [a] }

def addVariable (d : ServiceDescription) (v : StateVariable) : ServiceDescription :=
  { d with «variables» := d.«variables» ++ [v] }

def findAction (d : ServiceDescription) (name : String) : Option Action :=
  d.actions.find? fun a => a.name = name

def findVariable (d : ServiceDescription) (name : String) : Option StateVariable :=
  d.«variables».find? fun v => v.name = name

end ServiceDescription
end MediaRelay
