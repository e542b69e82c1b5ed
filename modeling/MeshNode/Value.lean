import MeshNode.Binary.Word
import MeshNode.Model
import MeshNode.TransitionTime

/-! # State values

A model holds a value of its own kind. Levels and lightness have a position on a line, so that a
transition can pass through the values between; the other kinds change in one go.
-/

namespace MeshNode

inductive OnOff where
  | off
  | on
  deriving DecidableEq

inductive OnPowerUp where
  | off
  | default
  | restore
  deriving DecidableEq

abbrev Level := Int16

abbrev Lightness := UInt16

/-- A byte that stands for no value of the named state. -/
structure Prohibited where
  state : String
  raw : UInt8
  deriving DecidableEq

def Prohibited.message (p : Prohibited) : String :=
  "value " ++ Text.markedHex p.raw ++ " is prohibited for " ++ p.state

namespace OnOff

def ofBool (b : Bool) : OnOff := if b then on else off

def raw : OnOff → UInt8
  | off => 0
  | on => 1

def ofRaw (b : UInt8) : Except Prohibited OnOff :=
  if b = 0 then .ok off else if b = 1 then .ok on else .error ⟨"OnOff", b⟩

def name : OnOff → String
  | off => "Off"
  | on => "On"

end OnOff

namespace OnPowerUp

def raw : OnPowerUp → UInt8
  | off => 0
  | default => 1
  | restore => 2

def ofRaw (b : UInt8) : Except Prohibited OnPowerUp :=
  if b = 0 then .ok off else if b = 1 then .ok default else if b = 2 then .ok restore
  else .error ⟨"OnPowerUp", b⟩

def name : OnPowerUp → String
  | off => "Off"
  | default => "Default"
  | restore => "Restore"

end OnPowerUp

namespace Level

def clamp (p : Int) : Level := Int16.ofInt (max (-32768) (min p 32767))

end Level

namespace Lightness

def clamp (p : Int) : Lightness := UInt16.ofNat (max 0 (min p 65535)).toNat

/-- The level that goes with a lightness: the same position from the other end of the range. -/
def toLevel (l : Lightness) : Level := Int16.ofInt ((l.toNat : Int) - 32768)

def ofLevel (l : Level) : Lightness := UInt16.ofNat (l.toInt + 32768).toNat

/-- The physical light output, which is the square of the perceived one. -/
def linear (l : Lightness) : UInt16 := UInt16.ofNat (l.toNat * l.toNat / 65536)

end Lightness

inductive Value where
  | onOff (state : OnOff)
  | level (level : Level)
  | onPowerUp (behaviour : OnPowerUp)
  | defaultTransition (time : TransitionTime)
  | lightness (lightness : Lightness)
  deriving DecidableEq

namespace Value

def model : Value → Model
  | onOff _ => .onOff
  | level _ => .level
  | onPowerUp _ => .powerOnOff
  | defaultTransition _ => .defaultTransition
  | lightness _ => .lightness

/-- Whether the value may be held: a default transition time must be a known duration. -/
def isLegal : Value → Bool
  | defaultTransition t => !t.isUnknown
  | _ => true

def initial : Model → Value
  | .onOff => onOff .off
  | .level => level 0
  | .defaultTransition => defaultTransition .immediate
  | .powerOnOff => onPowerUp .off
  | .lightness => lightness 0

def name : Value → String
  | onOff s => s.name
  | level _ => "Level"
  | onPowerUp b => b.name
  | defaultTransition t => if t.isUnknown then "Unknown" else "TransitionTime"
  | lightness _ => "Lightness"

/-- Whether a transition to the value shows it from its start: a light goes on at once, and off
only at the end. -/
def isImmediate : Value → Bool
  | onOff .on => true
  | _ => false

/-- The position of a value on its line, if it has one. -/
def position? : Value → Option Int
  | level l => some l.toInt
  | lightness l => some l.toNat
  | _ => none

/-- The value of the same kind at a position, or at the nearer end of its range; a value without
a position stays as it is. -/
def atPosition : Value → Int → Value
  | level _, p => level (.clamp p)
  | lightness _, p => lightness (.clamp p)
  | v, _ => v

/-- The value that lies `d` further along the line. -/
def shift (v : Value) (d : Int) : Value := v.atPosition (v.position?.getD 0 + d)

def encode : Value → List UInt8
  | onOff s => [s.raw]
  | level l => Binary.toBytes 2 l.toUInt16.toNat
  | onPowerUp b => [b.raw]
  | defaultTransition t => [t.raw]
  | lightness l => Binary.toBytes 2 l.toNat

end Value

end MeshNode
