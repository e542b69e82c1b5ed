import MeshNode.Instance
import MeshNode.Instant.Basic

/-! # Snapshots

What a node keeps of an instance across a power cycle: its values, its scenes, its light memory and
its history. A snapshot stamps such an image with a format version, an identifier and a time, and
is valid if it can be loaded into an instance.
-/

namespace MeshNode

structure Image where
  element : UInt8
  model : Model
  present : Value
  target : Value
  scenes : List (Option Value)
  light : LightMemory
  history : History
  deriving DecidableEq

def Image.capture (element : UInt8) (model : Model) (i : Instance) : Image :=
  ⟨element, model, i.present, i.target, i.scenes, i.light, i.history⟩

/-- An image with the format, the identifier and the time of its taking. -/
structure Snapshot where
  version : UInt32
  id : String
  taken : Instant
  image : Image
  deriving DecidableEq

inductive SnapshotError where
  | undecodable
  | unsupportedVersion (found supported : UInt32)
  | valueMismatch (model : Model)
  | invalidRange (lo hi : Lightness)
  | unknownModel (element : UInt8) (model : Model)
  deriving DecidableEq

namespace SnapshotError

def name : SnapshotError → String
  | undecodable => "DeserializationFailed"
  | unsupportedVersion .. => "UnsupportedVersion"
  | valueMismatch _ => "ValueMismatch"
  | invalidRange .. => "InvalidRange"
  | unknownModel .. => "UnknownModel"

def message : SnapshotError → String
  | undecodable => "could not decode snapshot"
  | unsupportedVersion found supported =>
    "snapshot format " ++ toString found.toNat ++ " cannot be read, expected " ++
      toString supported.toNat
  | valueMismatch m => "snapshot for " ++ m.name ++ " holds a value of another model"
  | invalidRange lo hi =>
    "snapshot lightness range Lightness(" ++ toString lo.toNat ++ ")..=Lightness(" ++
      toString hi.toNat ++ ") is empty or starts at zero"
  | unknownModel e m => "no " ++ m.name ++ " model on element " ++ toString e.toNat

end SnapshotError

namespace Snapshot

def currentVersion : UInt32 := 1

def ofImage (id : String) (taken : Instant) (image : Image) : Snapshot :=
  ⟨currentVersion, id, taken, image⟩

def values (s : Snapshot) : List Value :=
  s.image.present :: s.image.target :: s.image.scenes.filterMap fun v => v

def validate (s : Snapshot) : Except SnapshotError Unit :=
  if s.version ≠ currentVersion then .error (.unsupportedVersion s.version currentVersion)
  else if s.values.any fun v => v.model ≠ s.image.model || !v.isLegal then
    .error (.valueMismatch s.image.model)
  else if LightMemory.isRange s.image.light.rangeMin s.image.light.rangeMax then .ok ()
  else .error (.invalidRange s.image.light.rangeMin s.image.light.rangeMax)

end Snapshot

end MeshNode
