import MeshNode.Node.Transition

/-! # Binding rules

The rules that tie the states of the models together. A lightness goes with the level at the same
position and is on if it is not zero; switching on selects the default or the last lightness; and
the behaviour at power-up selects what a lamp returns to.
-/

namespace MeshNode

namespace Rule

def lightnessToLevel : Rule := fun _ target v =>
  match v with
  | .lightness l => [.bound target (.level l.toLevel)]
  | _ => []

def levelToLightness : Rule := fun _ target v =>
  match v with
  | .level l => [.bound target (.lightness (.ofLevel l))]
  | _ => []

/-- A switch follows a lightness: on unless it is zero. -/
def lightnessToOnOff : Rule := fun _ target v =>
  match v with
  | .lightness l => [.bound target (.onOff (.ofBool (0 < l)))]
  | _ => []

def onOffToLightness : Rule := fun elements target v =>
  match v, instance? elements target .lightness with
  | .onOff .off, some _ => [.bound target (.lightness 0)]
  | .onOff .on, some i => [.bound target (.lightness i.light.onValue)]
  | _, _ => []

/-- The switch position that a behaviour at power-up selects: off, on, or the last target. -/
def onPowerUpToOnOff : Rule := fun elements target v =>
  match v with
  | .onPowerUp .off => [.bound target (.onOff .off)]
  | .onPowerUp .default => [.bound target (.onOff .on)]
  | .onPowerUp .restore =>
    match instance? elements target .onOff with
    | some i => [.bound target i.target]
    | none => []
  | _ => []

def powerUpLightness? (i : Instance) : OnPowerUp → Option Lightness
  | .off => some 0
  | .default => some i.light.onValue
  | .restore =>
    match i.target with
    | .lightness l => some l
    | _ => none

/-- The lightness that a behaviour at power-up selects. A level on the same element goes along. -/
def onPowerUpToLightness : Rule := fun elements target v =>
  match v, instance? elements target .lightness with
  | .onPowerUp behaviour, some i =>
    match powerUpLightness? i behaviour with
    | some l =>
      .bound target (.lightness l) ::
        if (instance? elements target .level).isSome then [.bound target (.level l.toLevel)] else []
    | none => []
  | _, _ => []

def always (value : Value) (transition delay : Nat) (source : Source) : Rule := fun _ target _ =>
  [⟨target, value.model, value, transition, delay, source⟩]

def idle : Rule := fun _ _ _ => []

end Rule

namespace Node

def bindLightnessToLevel (n : Node) (lightness level : UInt8) :
    Node × Registration × Registration :=
  let (n, r) := n.bind ⟨.lightnessActual, .level, lightness, level⟩ Rule.lightnessToLevel
  let (n, r') := n.bind ⟨.level, .lightnessActual, level, lightness⟩ Rule.levelToLightness
  (n, r, r')

def bindLightnessToOnOff (n : Node) (lightness onOff : UInt8) :
    Node × Registration × Registration :=
  let (n, r) := n.bind ⟨.lightnessActual, .onOff, lightness, onOff⟩ Rule.lightnessToOnOff
  let (n, r') := n.bind ⟨.onOff, .lightnessActual, onOff, lightness⟩ Rule.onOffToLightness
  (n, r, r')

def bindOnOffToOnPowerUp (n : Node) (power onOff : UInt8) : Node × Registration :=
  n.bind ⟨.onPowerUp, .onOff, power, onOff⟩ Rule.onPowerUpToOnOff

def bindLightnessToOnPowerUp (n : Node) (power lightness : UInt8) : Node × Registration :=
  n.bind ⟨.onPowerUp, .lightnessActual, power, lightness⟩ Rule.onPowerUpToLightness

/-- Apply the behaviour at power-up of every instance that has one, and count them. -/
def powerUp (n : Node) : Node × Nat :=
  let servers := n.instances.filter fun (_, m, _) => m = .powerOnOff
  (servers.foldl (fun n (e, m, i) => n.follow e m i.present) n, servers.length)

end Node

end MeshNode
