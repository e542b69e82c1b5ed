import MeshNode.Value

/-! # Request parameters

The bytes of a request: a value, a transaction number, and optionally a transition time and a
delay. A refused request reports everything that is wrong with it.
-/

namespace MeshNode

inductive Violation where
  | length (expected : List Nat) (found : Nat)
  | prohibited (cause : Prohibited)
  | reservedTransitionTime (raw : UInt8)
  | zeroMoveTransition
  deriving DecidableEq

namespace Violation

def message : Violation → String
  | length expected found =>
    "parameter length " ++ toString found ++ " is not one of [" ++
      String.intercalate ", " (expected.map toString) ++ "]"
  | prohibited cause => cause.message
  | reservedTransitionTime raw =>
    "transition time " ++ Text.markedHex raw ++ " uses the reserved step count"
  | zeroMoveTransition => "a move needs a non-zero transition time"

def name : Violation → String
  | length .. => "Length"
  | prohibited _ => "Prohibited"
  | reservedTransitionTime _ => "ReservedTransitionTime"
  | zeroMoveTransition => "ZeroMoveTransition"

end Violation

structure Timing where
  transition : TransitionTime
  delay : UInt8
  deriving DecidableEq

/-- The parameters of a request that is part of a transaction. Without a timing the default
transition time applies. -/
structure Params (α : Type) where
  value : α
  tid : UInt8
  timing : Option Timing
  deriving DecidableEq

/-- A way to read a value from its bytes. -/
abbrev Decoder (α : Type) := List UInt8 → Except Prohibited α

namespace Decoder

def onOff : Decoder OnOff := fun bs => OnOff.ofRaw (bs.headD 0)

def level : Decoder Level := fun bs => .ok (UInt16.ofNat (Binary.ofBytes bs)).toInt16

def lightness : Decoder Lightness := fun bs => .ok (UInt16.ofNat (Binary.ofBytes bs))

def delta : Decoder Int32 := fun bs => .ok (UInt32.ofNat (Binary.ofBytes bs)).toInt32

end Decoder

namespace Params

variable {α : Type}

def checkTransition (raw : UInt8) : Except Violation TransitionTime :=
  if (TransitionTime.mk raw).isUnknown then .error (.reservedTransitionTime raw) else .ok ⟨raw⟩

def checkTiming : List UInt8 → Except Violation (Option Timing)
  | [raw, delay] => (checkTransition raw).map fun t => some ⟨t, delay⟩
  | _ => .ok none

def transactional (width : Nat) (decode : Decoder α) (bytes : List UInt8) :
    Except (List Violation) (Params α) :=
  let expected := [width + 1, width + 3]
  if bytes.length ∈ expected then
    let value := (decode (bytes.take width)).mapError Violation.prohibited
    let timing := checkTiming (bytes.drop (width + 1))
    match value, timing with
    | .ok value, .ok timing => .ok ⟨value, bytes.getD width 0, timing⟩
    | .error v, .ok _ => .error [v]
    | .ok _, .error v => .error [v]
    | .error v, .error w => .error [v, w]
  else .error [.length expected bytes.length]

/-- Read a move: a speed with a transition time that, if given, is not zero. -/
def movement (bytes : List UInt8) : Except (List Violation) (Params Level) :=
  match transactional 2 Decoder.level bytes with
  | .error vs => .error vs
  | .ok p =>
    match p.timing with
    | some timing => if timing.transition.steps = 0 then .error [.zeroMoveTransition] else .ok p
    | none => .ok p

def single (check : UInt8 → Except Violation α) : List UInt8 → Except (List Violation) α
  | [b] => (check b).mapError fun v => [v]
  | bytes => .error [.length [1] bytes.length]

def onPowerUp : List UInt8 → Except (List Violation) OnPowerUp :=
  single fun b => (OnPowerUp.ofRaw b).mapError .prohibited

def defaultTransition : List UInt8 → Except (List Violation) TransitionTime :=
  single checkTransition

end Params

end MeshNode
