import MeshNode.Node.Transition

/-! # Light settings

The default lightness and the range of a lightness server. A lamp that settles outside a new range
goes to its nearer end at once.
-/

namespace MeshNode.Node

def reportLightSetting (n : Node) (element : UInt8) (status : Status) : Node × Status :=
  let value := (n.present? element .lightness).getD (.initial .lightness)
  (n.emit (.stateUpdate status element .lightness .application value none .idle), status)

/-- Choose the lightness to switch on to, zero meaning the last one. -/
def setLightDefault (n : Node) (element : UInt8) (default : Lightness) : Node × Status :=
  if n.hosts element .lightness then
    let n := n.modify element .lightness fun i => { i with light := { i.light with default } }
    (n.save element .lightness).reportLightSetting element .success
  else n.reportLightSetting element .invalidElement

def setLightRange (n : Node) (element : UInt8) (lo hi : Lightness) : Node × Status :=
  match n.get? element .lightness with
  | none => n.reportLightSetting element .invalidElement
  | some i =>
    if LightMemory.isRange lo hi then
      let light := { i.light with rangeMin := lo, rangeMax := hi }
      let n := n.modify element .lightness fun i => { i with light }
      let current : Lightness := match i.settled with
        | .lightness l => l
        | _ => 0
      if light.clamp current = current then
        (n.save element .lightness).reportLightSetting element .success
      else n.request (.application element (.lightness (light.clamp current)) 0 0)
    else n.reportLightSetting element .invalidParam

end MeshNode.Node
