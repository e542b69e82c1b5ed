import MeshNode.Value

/-! # Light memory

What a lightness server remembers beside its state: the lightness to switch on to, the last one
that was not off, and the range that a lit lamp keeps to.
-/

namespace MeshNode

/-- The default, last and range values of a lightness server. -/
structure LightMemory where
  /-- The lightness to switch on to, zero meaning the last one. -/
  default : Lightness
  last : Lightness
  rangeMin : Lightness
  rangeMax : Lightness
  deriving DecidableEq

namespace LightMemory

def initial : LightMemory := ⟨0, 65535, 1, 65535⟩

def isRange (lo hi : Lightness) : Bool := lo ≠ 0 && lo ≤ hi

/-- A lightness pulled to the nearer end of the range; off stays off. -/
def clamp (m : LightMemory) (l : Lightness) : Lightness :=
  if l = 0 then l
  else if l < m.rangeMin then m.rangeMin
  else if m.rangeMax < l then m.rangeMax
  else l

/-- The lightness that switching on selects. -/
def onValue (m : LightMemory) : Lightness := m.clamp (if m.default ≠ 0 then m.default else m.last)

def noting (m : LightMemory) : Value → LightMemory
  | .lightness l => if l = 0 then m else { m with last := l }
  | _ => m

end LightMemory

end MeshNode
