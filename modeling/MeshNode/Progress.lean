import MeshNode.Value

/-! # Progress of a change

A long numeric transition is cut into steps of one interval each, and a move adds a fixed step at a
fixed interval until the end of the range.
-/

namespace MeshNode

/-- The interim steps that are left of a transition and the distance that each covers; no steps
for a change in one go. -/
structure Stepping where
  steps : Nat
  increment : Int
  deriving DecidableEq

namespace Stepping

def none : Stepping := ⟨0, 0⟩

def isActive (s : Stepping) : Bool := 0 < s.steps

def word32 (n : Nat) : Int := (n : Int).bmod UInt32.size

/-- Cut a transition between two positions into interval-long steps, if it spans at least two. The
increment is the distance over the number of steps as a signed word, rounded towards zero. -/
def plan (present target : Value) (transition interval : Nat) : Stepping :=
  match present.position?, target.position? with
  | some a, some b =>
    let steps := transition / interval
    if interval = 0 ∨ steps < 2 then none else ⟨steps, (b - a).tdiv (word32 steps)⟩
  | _, _ => none

/-- The steps left after one of them: the last two are taken in one go. -/
def next (s : Stepping) : Stepping := { s with steps := if s.steps = 2 then 0 else s.steps - 1 }

end Stepping

structure Motion where
  step : Int
  interval : Nat
  deriving DecidableEq

namespace Motion

def saturate32 (i : Int) : Int := max (-2147483648) (min i 2147483647)

/-- Move by `delta` every `transition` milliseconds with an update every `update` milliseconds. A
move too slow to show at every update goes one unit at a time, less often. -/
def ofSpeed (delta : Int) (transition update : Nat) : Motion :=
  let step := (delta * update).tdiv (max transition 1 : Nat)
  if step ≠ 0 then ⟨saturate32 step, update⟩
  else ⟨delta.sign, max (transition / max delta.natAbs 1) 1⟩

end Motion

end MeshNode
