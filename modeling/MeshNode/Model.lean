/-! # Server models

The models that a node can host, the states that bindings can tie together, and where a change of
state can come from.
-/

namespace MeshNode

inductive Model where
  | onOff
  | level
  | defaultTransition
  | powerOnOff
  | lightness
  deriving DecidableEq

/-- A state that can take part in a binding. -/
inductive BoundState where
  | onOff
  | level
  | onPowerUp
  | lightnessActual
  deriving DecidableEq

/-- What asked for a change of state. -/
inductive Source where
  | client
  | application
  | binding
  | scene
  deriving DecidableEq

namespace Model

def all : List Model := [onOff, level, defaultTransition, powerOnOff, lightness]

def index : Model → Nat
  | onOff => 0
  | level => 1
  | defaultTransition => 2
  | powerOnOff => 3
  | lightness => 4

def id : Model → UInt16
  | onOff => 0x1000
  | level => 0x1002
  | defaultTransition => 0x1004
  | powerOnOff => 0x1006
  | lightness => 0x1300

/-- The state of the model that bindings can follow, if there is one. -/
def boundState? : Model → Option BoundState
  | onOff => some .onOff
  | level => some .level
  | defaultTransition => none
  | powerOnOff => some .onPowerUp
  | lightness => some .lightnessActual

def isTransitional : Model → Bool
  | onOff | level | lightness => true
  | defaultTransition | powerOnOff => false

def supportsScenes : Model → Bool
  | onOff | level | lightness => true
  | defaultTransition | powerOnOff => false

def name : Model → String
  | onOff => "GenOnOff"
  | level => "GenLevel"
  | defaultTransition => "GenDefaultTransition"
  | powerOnOff => "GenPowerOnOff"
  | lightness => "LightLightness"

theorem mem_all (m : Model) : m ∈ all := by cases m <;> decide

@[simp] theorem all_getElem?_index (m : Model) : all[m.index]? = some m := by cases m <;> rfl

end Model

namespace BoundState

def all : List BoundState := [onOff, level, onPowerUp, lightnessActual]

def name : BoundState → String
  | onOff => "GenOnOff"
  | level => "GenLevel"
  | onPowerUp => "GenOnPowerUp"
  | lightnessActual => "LightLightnessActual"

end BoundState

namespace Source

def all : List Source := [client, application, binding, scene]

/-- Whether a change from this source is passed on through bindings. -/
def triggersBindings : Source → Bool
  | client | application => true
  | binding | scene => false

def name : Source → String
  | client => "Client"
  | application => "Application"
  | binding => "Binding"
  | scene => "Scene"

end Source

end MeshNode
