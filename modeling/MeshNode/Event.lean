import MeshNode.PerModel
import MeshNode.Value

/-! # Events

What the application is told: that a request was processed or a transition went on, and the
answers to its own queries. It listens to each model on its own, and events of a model that nobody
listens to are dropped.
-/

namespace MeshNode

inductive Status where
  | success
  | invalidElement
  | invalidParam
  deriving DecidableEq

def Status.name : Status → String
  | success => "Success"
  | invalidElement => "InvalidElement"
  | invalidParam => "InvalidParam"

/-- Where an instance stands between two settled values. -/
inductive Phase where
  | idle
  | delayed
  | transitioning
  deriving DecidableEq

def Phase.name : Phase → String
  | idle => "Idle"
  | delayed => "Delayed"
  | transitioning => "Transitioning"

inductive Event where
  /-- A request was processed or a transition went on. The target is given while there is one. -/
  | stateUpdate (status : Status) (element : UInt8) (model : Model) (source : Source)
      (value : Value) (target : Option Value) (phase : Phase)
  | currentState (status : Status) (element : UInt8) (model : Model) (value : Option Value)
  deriving DecidableEq

namespace Event

def status : Event → Status
  | stateUpdate s .. => s
  | currentState s .. => s

def element : Event → UInt8
  | stateUpdate _ e .. => e
  | currentState _ e .. => e

def model : Event → Model
  | stateUpdate _ _ m .. => m
  | currentState _ _ m _ => m

end Event

abbrev Listeners := PerModel (Option String)

namespace Listeners

def none : Listeners := .replicate Option.none

def register (l : Listeners) (m : Model) (name : String) : Listeners := l.set m (some name)

def isRegistered (l : Listeners) (m : Model) : Bool := (l.get m).isSome

/-- Who hears an event, if anybody does. -/
def hearer? (l : Listeners) (e : Event) : Option String := l.get e.model

def models (l : Listeners) : List Model := Model.all.filter l.isRegistered

end Listeners

end MeshNode
