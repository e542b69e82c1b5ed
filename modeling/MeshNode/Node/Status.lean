import MeshNode.Node.Basic

/-! # Status reports

A report holds the present value and, while a change is in progress, the target and the time left.
The time left is that of the running timer and of the steps behind it.
-/

namespace MeshNode

structure Report where
  present : Value
  target : Option Value
  remaining : Option TransitionTime
  deriving DecidableEq

namespace Report

def settled (present : Value) : Report := ⟨present, none, none⟩

/-- The bytes of a report: the present value, and in progress the target and the time left. -/
def encode (r : Report) : List UInt8 :=
  r.present.encode ++
    match r.target, r.remaining with
    | some target, some remaining => target.encode ++ [remaining.raw]
    | _, _ => []

end Report

namespace Node

/-- The time left of a transition under way: what the running segment still takes and the segments
after it. -/
def timeLeft (n : Node) (element : UInt8) (model : Model) (i : Instance) : Nat :=
  (n.timers.remaining? (transitionTimer element model)).getD i.remaining +
    if i.stepping.isActive then i.remaining - n.config.stepInterval.toNat else 0

/-- The time that a report gives for a change in progress: unknown for a move, and the whole
transition while it is delayed. -/
def reportedTime (n : Node) (element : UInt8) (model : Model) (i : Instance) : TransitionTime :=
  if i.isMoving then .unknown
  else if 0 < i.delay then .ofMillis i.remaining
  else .ofMillis (n.timeLeft element model i)

def report? (n : Node) (element : UInt8) (model : Model) : Option Report :=
  (n.get? element model).map fun i =>
    if i.remaining = 0 ∧ i.delay = 0 then .settled i.present
    else ⟨i.present, some i.target, some (n.reportedTime element model i)⟩

def sendStatus (n : Node) (element : UInt8) (model : Model) (dst appKey : UInt16)
    (unicast : Bool) : Node :=
  match n.report? element model with
  | some r =>
    n.handOver (.sent ⟨element, model, dst, appKey, Reply.defaultTtl, r.encode,
      Reply.minResponseDelay, Reply.maxResponseDelay unicast⟩)
  | none => n

def publish (n : Node) (element : UInt8) (model : Model) : Node :=
  match n.report? element model with
  | some r => n.handOver (.published ⟨element, model, r.encode⟩)
  | none => n

def publishPeriodically (n : Node) (element : UInt8) (model : Model) : Node × Status :=
  if n.hosts element model then (n.publish element model, .success) else (n, .invalidElement)

def announce (n : Node) (element : UInt8) (model : Model) : Node :=
  match n.get? element model with
  | some i =>
    n.emit (.stateUpdate .success element model i.source i.present
      (if i.isIdle then none else some i.target) i.phase)
  | none => n

/-- Answer a query of the application for a present value, by an event too. -/
def query (n : Node) (element : UInt8) (model : Model) : Node × Option Value :=
  let value := n.present? element model
  let status := if value.isSome then .success else .invalidElement
  (n.emit (.currentState status element model value), value)

end Node

end MeshNode
