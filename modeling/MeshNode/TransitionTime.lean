import MeshNode.Text.Decimal
import MeshNode.Text.Hex

/-! # Transition times

A duration on the wire is one byte: the low six bits count steps and the high two bits choose how
long a step is. The step count with all bits set is reserved for a duration that is not known.
Writing a duration in milliseconds takes the finest steps that reach it and rounds down.
-/

namespace MeshNode

/-- How long one step of a transition time is. -/
inductive Resolution where
  | tenthSecond
  | second
  | tenSeconds
  | tenMinutes
  deriving DecidableEq

namespace Resolution

def stepMs : Resolution → Nat
  | tenthSecond => 100
  | second => 1000
  | tenSeconds => 10000
  | tenMinutes => 600000

/-- The longest duration that steps of this length can count: 62 of them. -/
def maxMs (r : Resolution) : Nat := 62 * r.stepMs

def code : Resolution → Nat
  | tenthSecond => 0
  | second => 1
  | tenSeconds => 2
  | tenMinutes => 3

def ofCode : Nat → Resolution
  | 0 => tenthSecond
  | 1 => second
  | 2 => tenSeconds
  | _ => tenMinutes

/-- The finest resolution that reaches a duration, if one does. -/
def finest? (ms : Nat) : Option Resolution :=
  if ms ≤ tenthSecond.maxMs then some tenthSecond
  else if ms ≤ second.maxMs then some second
  else if ms ≤ tenSeconds.maxMs then some tenSeconds
  else if ms ≤ tenMinutes.maxMs then some tenMinutes
  else none

@[simp] theorem ofCode_code (r : Resolution) : ofCode r.code = r := by cases r <;> rfl

end Resolution

/-- A duration as it is sent: one byte of steps and resolution. -/
structure TransitionTime where
  raw : UInt8
  deriving DecidableEq

namespace TransitionTime

def unknownSteps : Nat := 63

def immediate : TransitionTime := ⟨0⟩

def unknown : TransitionTime := ⟨63⟩

def steps (t : TransitionTime) : Nat := t.raw.toNat % 64

def resolution (t : TransitionTime) : Resolution := .ofCode (t.raw.toNat / 64)

def isUnknown (t : TransitionTime) : Bool := t.steps = unknownSteps

/-- The duration in milliseconds, if it is known. -/
def millis? (t : TransitionTime) : Option Nat :=
  if t.isUnknown then none else some (t.steps * t.resolution.stepMs)

/-- The duration in milliseconds, an unknown one counting as none. -/
def millis (t : TransitionTime) : Nat := t.millis?.getD 0

def pack (r : Resolution) (steps : Nat) : TransitionTime := ⟨UInt8.ofNat (64 * r.code + steps)⟩

/-- A duration in the finest steps that reach it, rounded down; unknown if no steps reach it. -/
def ofMillis (ms : Nat) : TransitionTime :=
  match Resolution.finest? ms with
  | some r => pack r (ms / r.stepMs)
  | none => unknown

/-- Whether writing the duration gives this very byte. -/
def isCanonical (t : TransitionTime) : Bool :=
  match t.millis? with
  | some ms => ofMillis ms = t
  | none => false

def delayMs (units : Nat) : Nat := 5 * units

end TransitionTime

end MeshNode
