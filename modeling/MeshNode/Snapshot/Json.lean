import MeshNode.Instant.Text
import MeshNode.Json.Reader
import MeshNode.Json.Writer
import MeshNode.Snapshot.Basic

/-! # Snapshots as JSON

The parts of a snapshot as JSON values, and a snapshot as a text without blanks. Records are
written as objects with their fields in order; alternatives with content as objects with one key.
-/

namespace MeshNode

def Model.toJson (m : Model) : Json := .text m.name

def Model.ofJson? : Json → Option Model := Json.choice? Model.name Model.all

def Source.toJson (s : Source) : Json := .text s.name

def Source.ofJson? : Json → Option Source := Json.choice? Source.name Source.all

def OnOff.ofJson? : Json → Option OnOff := Json.choice? OnOff.name [.off, .on]

def OnPowerUp.ofJson? : Json → Option OnPowerUp :=
  Json.choice? OnPowerUp.name [.off, .default, .restore]

namespace Value

def toJson : Value → Json
  | onOff s => .mk [("OnOff", .text s.name)]
  | level l => .mk [("Level", .int l.toInt)]
  | onPowerUp b => .mk [("OnPowerUp", .text b.name)]
  | defaultTransition t => .mk [("DefaultTransition", .nat t.raw.toNat)]
  | lightness l => .mk [("Lightness", .nat l.toNat)]

def ofJson? (j : Json) : Option Value :=
  match j.variant? with
  | some ("OnOff", some c) => (OnOff.ofJson? c).map onOff
  | some ("Level", some c) => (c.int? (-32768) 32767).map fun i => level (Int16.ofInt i)
  | some ("OnPowerUp", some c) => (OnPowerUp.ofJson? c).map onPowerUp
  | some ("DefaultTransition", some c) => c.word8?.map fun b => defaultTransition ⟨b⟩
  | some ("Lightness", some c) => c.word16?.map lightness
  | _ => none

def toJsonOption : Option Value → Json
  | none => .null
  | some v => v.toJson

end Value

namespace LightMemory

def toJson (m : LightMemory) : Json :=
  .mk [("default", .nat m.default.toNat), ("last", .nat m.last.toNat),
    ("range_min", .nat m.rangeMin.toNat), ("range_max", .nat m.rangeMax.toNat)]

def ofJson? (j : Json) : Option LightMemory := do
  let [some a, some b, some c, some d] ← j.record? ["default", "last", "range_min", "range_max"]
    | none
  return ⟨← a.word16?, ← b.word16?, ← c.word16?, ← d.word16?⟩

end LightMemory

namespace Change

def toJson (c : Change) : Json :=
  .mk [("from", c.before.toJson), ("to", c.after.toJson), ("at_ms", .nat c.time.toNat),
    ("source", c.source.toJson)]

def ofJson? (j : Json) : Option Change := do
  let [some a, some b, some c, some d] ← j.record? ["from", "to", "at_ms", "source"] | none
  return ⟨← Value.ofJson? a, ← Value.ofJson? b, ← c.word64?, ← Source.ofJson? d⟩

end Change

namespace History

def toJson (h : History) : Json :=
  .mk [("changes", .arr (h.changes.map Change.toJson)), ("limit", .nat h.limit.toNat)]

def ofJson? (j : Json) : Option History := do
  let [some a, some b] ← j.record? ["changes", "limit"] | none
  return ⟨← a.list? Change.ofJson?, ← b.word64?⟩

end History

namespace Snapshot

def fieldNames : List String :=
  ["version", "id", "timestamp", "element", "model", "present", "target", "scenes", "lightness",
    "history"]

def toJson (s : Snapshot) : Json :=
  .mk [("version", .nat s.version.toNat), ("id", .text s.id), ("timestamp", .text s.taken.toText),
    ("element", .nat s.image.element.toNat), ("model", s.image.model.toJson),
    ("present", s.image.present.toJson), ("target", s.image.target.toJson),
    ("scenes", .arr (s.image.scenes.map Value.toJsonOption)),
    ("lightness", s.image.light.toJson), ("history", s.image.history.toJson)]

def ofJson? (j : Json) : Option Snapshot := do
  let [some version, some id, some taken, some element, some model, some present, some target,
    some scenes, some light, some history] ← j.record? fieldNames | none
  return {
    version := ← version.word32?
    id := ← id.text?
    taken := ← taken.text?.bind Instant.ofText?
    image := {
      element := ← element.word8?
      model := ← Model.ofJson? model
      present := ← Value.ofJson? present
      target := ← Value.ofJson? target
      scenes := ← scenes.list? (Json.option? Value.ofJson?)
      light := ← LightMemory.ofJson? light
      history := ← History.ofJson? history } }

def toText (s : Snapshot) : String := s.toJson.compact

def accept (s : Option Snapshot) : Except SnapshotError Snapshot :=
  match s with
  | none => .error .undecodable
  | some s => s.validate.map fun _ => s

def ofText (t : String) : Except SnapshotError Snapshot := accept ((Json.parse? t).bind ofJson?)

end Snapshot

end MeshNode
