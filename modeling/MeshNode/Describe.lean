import MeshNode.Node.Basic
import MeshNode.Text.Record

/-! # Descriptions of a node

The parts of a node as text, for people who look into it.
-/

namespace MeshNode

open Text

def TransitionTime.describe (t : TransitionTime) : String :=
  wrapped "TransitionTime" (commas [markedHex t.raw,
    match t.millis? with
    | some ms => toString ms ++ "ms"
    | none => "unknown"])

def Value.describe : Value → String
  | onOff s => wrapped "OnOff" s.name
  | level l => wrapped "Level" (wrapped "Level" (toString l.toInt))
  | onPowerUp b => wrapped "OnPowerUp" b.name
  | defaultTransition t => wrapped "DefaultTransition" t.describe
  | lightness l => wrapped "Lightness" (wrapped "Lightness" (toString l.toNat))

def Config.describe (c : Config) : String :=
  record "EngineConfig" [
    ("binding_capacity", toString c.bindingCapacity.toNat),
    ("dedup_timeout_ms", toString c.dedupTimeout.toNat),
    ("scene_slots", toString c.sceneSlots.toNat),
    ("step_interval_ms", toString c.stepInterval.toNat),
    ("move_interval_ms", toString c.moveInterval.toNat),
    ("max_bind_depth", toString c.maxBindDepth.toNat),
    ("history_limit", toString c.historyLimit.toNat)]

def Transaction.describe (t : Transaction) : String :=
  record "TransactionFilter" [("last_source", toString t.source.toNat),
    ("last_tid", toString t.tid.toNat)]

def Instance.describe (element : UInt8) (model : Model) (i : Instance) : String :=
  abridged "ModelDescriptor" [
    ("element", toString element.toNat),
    ("kind", model.name),
    ("present", i.present.describe),
    ("target", i.target.describe),
    ("remaining_ms", toString i.remaining),
    ("delay_units", toString i.delay),
    ("update_source", i.source.name),
    ("filter", i.transaction.describe),
    ("persist", ofBool i.isSaved)]

def Element.describe (element : UInt8) (e : Element) : String :=
  record "Element" [("models",
    table (e.instances.map fun (m, i) => (m.name, i.describe element m)))]

def Listeners.describe (l : Listeners) : String :=
  record "EventCallbacks" [("models", list (l.models.map Model.name))]

def Link.describe (l : Link) : String :=
  abridged "BindEntry" [
    ("source_state", l.sourceState.name),
    ("target_state", l.targetState.name),
    ("source_element", toString l.source.toNat),
    ("target_element", toString l.target.toNat)]

def BindingTable.describe {α : Type} (t : BindingTable α) : String :=
  record "BindingTable" [("entries", list (t.links.map Link.describe)),
    ("capacity", toString t.capacity)]

def Node.describe (n : Node) : String :=
  abridged "Engine" [
    ("config", n.config.describe),
    ("elements", list (n.elements.zipIdx.map fun (e, k) => e.describe (UInt8.ofNat k))),
    ("bindings", toString n.bindings.bindings.length),
    ("now_ms", toString n.now),
    ("callbacks", n.listeners.describe)]

end MeshNode
