import MeshNode.Node.Transition

/-! # Scenes

Storing the present values of an element in a scene slot, and moving the element back to them.
-/

namespace MeshNode.Node

def storeIn (n : Node) (element : UInt8) (slot : Nat) (model : Model) : Node :=
  n.modify element model fun i => { i with scenes := i.scenes.set slot (some i.present) }

def storeScene (n : Node) (element : UInt8) (slot : Nat) : Node × Status :=
  match n.elements[element.toNat]? with
  | none => (n, .invalidElement)
  | some e =>
    if n.config.sceneSlots.toNat ≤ slot then (n, .invalidParam)
    else
      let models := (e.instances.filter fun (_, i) => slot < i.scenes.length).map Prod.fst
      if models = [] then (n, .invalidElement)
      else
        let n := models.foldl (fun n m => n.storeIn element slot m) n
        (models.foldl (fun n m => n.save element m) n, .success)

def recallScene (n : Node) (element : UInt8) (slot transition : Nat) : Node × Status :=
  match n.elements[element.toNat]? with
  | none => (n, .invalidElement)
  | some e =>
    if n.config.sceneSlots.toNat ≤ slot then (n, .invalidParam)
    else
      let requests := e.instances.filterMap fun (m, i) =>
        (i.scene? slot).map fun v => Request.scene element m v transition
      if requests = [] then (n, .invalidParam)
      else (requests.foldl (carryOut follow) n, .success)

end MeshNode.Node
