import MeshNode.Node.Transition

/-! # Taking and loading snapshots

A snapshot is loaded into the instance that it was taken of. Whatever was in progress there is
abandoned; the target is kept for the next power-up.
-/

namespace MeshNode

def overlay {α : Type} : List α → List α → List α
  | _ :: slots, v :: values => v :: overlay slots values
  | slots, _ => slots

def Instance.load (i : Instance) (image : Image) : Instance :=
  { i.reset with
    present := image.present
    target := image.target
    scenes := overlay i.scenes image.scenes
    light := image.light
    history := image.history }

namespace Node

def capture? (n : Node) (element : UInt8) (model : Model) (id : String) (taken : Instant) :
    Option Snapshot :=
  (n.get? element model).map fun i => .ofImage id taken (.capture element model i)

def restore (n : Node) (s : Snapshot) : Except SnapshotError Node := do
  s.validate
  let ⟨element, model⟩ := (s.image.element, s.image.model)
  if n.hosts element model then
    let n := (n.cancel (transitionTimer element model)).cancel (transactionTimer element model)
    return n.modify element model fun i => i.load s.image
  else throw (.unknownModel element model)

end Node

end MeshNode
