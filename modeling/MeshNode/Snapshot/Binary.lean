import MeshNode.Binary.Reader
import MeshNode.Instant.Text
import MeshNode.Snapshot.Json

/-! # Snapshots as bytes

The fields of a snapshot one after another in a fixed layout. Bytes that follow a snapshot are not
looked at.
-/

namespace MeshNode

open Binary

namespace Value

def onOffs : List OnOff := [.off, .on]

def onPowerUps : List OnPowerUp := [.off, .default, .restore]

def toBytes : Value → List UInt8
  | onOff s => Binary.toBytes 4 0 ++ writeChoice onOffs s
  | level l => Binary.toBytes 4 1 ++ Binary.toBytes 2 l.toUInt16.toNat
  | onPowerUp b => Binary.toBytes 4 2 ++ writeChoice onPowerUps b
  | defaultTransition t => Binary.toBytes 4 3 ++ Binary.toBytes 1 t.raw.toNat
  | lightness l => Binary.toBytes 4 4 ++ Binary.toBytes 2 l.toNat

def read : Reader Value := do
  let kind ← Reader.word 4
  match kind with
  | 0 => return onOff (← Reader.choice onOffs)
  | 1 => return level (UInt16.ofNat (← Reader.word 2)).toInt16
  | 2 => return onPowerUp (← Reader.choice onPowerUps)
  | 3 => return defaultTransition ⟨UInt8.ofNat (← Reader.word 1)⟩
  | 4 => return lightness (UInt16.ofNat (← Reader.word 2))
  | _ => Reader.ofOption none

end Value

namespace LightMemory

def toBytes (m : LightMemory) : List UInt8 :=
  Binary.toBytes 2 m.default.toNat ++ Binary.toBytes 2 m.last.toNat ++
    Binary.toBytes 2 m.rangeMin.toNat ++ Binary.toBytes 2 m.rangeMax.toNat

def read : Reader LightMemory := do
  let default ← Reader.word 2
  let last ← Reader.word 2
  let lo ← Reader.word 2
  let hi ← Reader.word 2
  return ⟨UInt16.ofNat default, UInt16.ofNat last, UInt16.ofNat lo, UInt16.ofNat hi⟩

end LightMemory

namespace Change

def toBytes (c : Change) : List UInt8 :=
  c.before.toBytes ++ c.after.toBytes ++ Binary.toBytes 8 c.time.toNat ++
    writeChoice Source.all c.source

def read : Reader Change := do
  let before ← Value.read
  let after ← Value.read
  let time ← Reader.word 8
  let source ← Reader.choice Source.all
  return ⟨before, after, UInt64.ofNat time, source⟩

end Change

namespace History

def toBytes (h : History) : List UInt8 :=
  writeList Change.toBytes h.changes ++ Binary.toBytes 8 h.limit.toNat

def read : Reader History := do
  let changes ← Reader.list Change.read
  let limit ← Reader.word 8
  return ⟨changes, UInt64.ofNat limit⟩

end History

namespace Image

def toBytes (i : Image) : List UInt8 :=
  Binary.toBytes 1 i.element.toNat ++ writeChoice Model.all i.model ++ i.present.toBytes ++
    i.target.toBytes ++ writeList (writeOption Value.toBytes) i.scenes ++ i.light.toBytes ++
    i.history.toBytes

def read : Reader Image := do
  let element ← Reader.word 1
  let model ← Reader.choice Model.all
  let present ← Value.read
  let target ← Value.read
  let scenes ← Reader.list (Reader.option Value.read)
  let light ← LightMemory.read
  let history ← History.read
  return ⟨UInt8.ofNat element, model, present, target, scenes, light, history⟩

end Image

namespace Snapshot

def toBytes (s : Snapshot) : List UInt8 :=
  Binary.toBytes 4 s.version.toNat ++ writeText s.id ++ writeText s.taken.toText ++
    s.image.toBytes

def read : Reader Snapshot := do
  let version ← Reader.word 4
  let id ← Reader.text
  let stamp ← Reader.text
  let taken ← Reader.ofOption (Instant.ofText? stamp)
  let image ← Image.read
  return ⟨UInt32.ofNat version, id, taken, image⟩

def ofBytes (bs : List UInt8) : Except SnapshotError Snapshot := accept ((read bs).map Prod.fst)

end Snapshot

end MeshNode
