import MeshNode.Config.Basic
import MeshNode.Json.Reader
import MeshNode.Json.Writer

/-! # Configurations as JSON

A configuration is an object of its fields, each of which may be left out for its default, or an
array of their values in order.
-/

namespace MeshNode.Config

def fieldNames : List String :=
  ["binding_capacity", "dedup_timeout_ms", "scene_slots", "step_interval_ms", "move_interval_ms",
    "max_bind_depth", "history_limit"]

def fields (c : Config) : List (String × Json) :=
  [("binding_capacity", .nat c.bindingCapacity.toNat),
    ("dedup_timeout_ms", .nat c.dedupTimeout.toNat),
    ("scene_slots", .nat c.sceneSlots.toNat),
    ("step_interval_ms", .nat c.stepInterval.toNat),
    ("move_interval_ms", .nat c.moveInterval.toNat),
    ("max_bind_depth", .nat c.maxBindDepth.toNat),
    ("history_limit", .nat c.historyLimit.toNat)]

/-- The configuration that a JSON value holds, valid or not. -/
def ofJson? (j : Json) : Option Config := do
  let [a, b, c, d, e, f, g] ← j.record? fieldNames | none
  let standard : Config := {}
  return {
    bindingCapacity := ← Json.orElse Json.word64? standard.bindingCapacity a
    dedupTimeout := ← Json.orElse Json.word32? standard.dedupTimeout b
    sceneSlots := ← Json.orElse Json.word64? standard.sceneSlots c
    stepInterval := ← Json.orElse Json.word32? standard.stepInterval d
    moveInterval := ← Json.orElse Json.word32? standard.moveInterval e
    maxBindDepth := ← Json.orElse Json.word64? standard.maxBindDepth f
    historyLimit := ← Json.orElse Json.word64? standard.historyLimit g }

def toText (c : Config) : String := Json.layout c.fields

def ofText (s : String) : Except ConfigError Config :=
  match (Json.parse? s).bind ofJson? with
  | some c => c.checked
  | none => .error .parse

end MeshNode.Config
