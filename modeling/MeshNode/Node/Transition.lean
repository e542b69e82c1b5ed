import MeshNode.Node.Status

/-! # Transitions

How an instance goes from value to value. A request waits for its delay, then for its transition,
and then settles; with neither it settles at once. One timer of the instance serves the delay and
the transition, so a new request takes the place of the one before. Each value that an instance
comes to is passed on through its bindings, unless a binding or a scene asked for the change, and
bindings trigger bindings only up to a configured depth.
-/

namespace MeshNode

/-- A way to let the bindings of a state follow a value. -/
abbrev Follow := Node → UInt8 → Model → Value → Node

namespace Node

def display (n : Node) (element : UInt8) (model : Model) (v : Value) (source : Source) : Node :=
  n.modify element model fun i => i.display v source n.now

def passOn (follow : Follow) (n : Node) (element : UInt8) (model : Model) (v : Value)
    (source : Source) : Node :=
  if source.triggersBindings then follow n element model v else n

def settle (follow : Follow) (n : Node) (element : UInt8) (model : Model) (target : Value)
    (source : Source) : Node :=
  match n.get? element model with
  | none => n
  | some i =>
    let n := n.modify element model fun i =>
      { i with
        remaining := 0
        delay := 0
        stepping := .none
        motion := none
        target := target
        edgeResolved := false }
    let n := n.display element model target source
    let n := if i.edgeResolved then n else n.passOn follow element model target source
    ((n.publish element model).save element model).announce element model

/-- Begin the transition towards a value: arm the timer of its first segment, and show at once a
value that is not to be waited for. -/
def embark (follow : Follow) (n : Node) (element : UInt8) (model : Model) (target : Value)
    (transition : Nat) (source : Source) (stepped : Bool) : Node :=
  let first := if stepped then n.config.stepInterval.toNat else transition
  let n := n.arm (transitionTimer element model) first
  let n :=
    if target.isImmediate then
      let n := n.display element model target source
      if source.triggersBindings then
        (follow n element model target).modify element model fun i =>
          { i with edgeResolved := true }
      else n
    else n
  n.announce element model

/-- Enter a request into an instance and arm the timer for what comes first: the delay, or the
transition, or neither. -/
def program (follow : Follow) (n : Node) (element : UInt8) (model : Model) (target : Value)
    (transition delay : Nat) (source : Source) : Node :=
  match n.get? element model with
  | none => n
  | some i =>
    let n := n.modify element model fun i =>
      { i with remaining := transition, delay := delay, source := source, target := target }
    if 0 < delay then
      (n.arm (transitionTimer element model) (TransitionTime.delayMs delay)).announce element model
    else if 0 < transition then
      n.embark follow element model target transition source i.stepping.isActive
    else
      (n.cancel (transitionTimer element model)).settle follow element model target source

def check (n : Node) (element : UInt8) (model : Model) (v : Value) : Status :=
  if n.hosts element model then
    if v.model = model && v.isLegal then .success else .invalidParam
  else .invalidElement

/-- The value that an instance takes for a requested one: a lightness within the range. -/
def confine (i : Instance) : Value → Value
  | .lightness l => .lightness (i.light.clamp l)
  | v => v

/-- Start a change in place of the running one. Models without transitions change at once. -/
def start (follow : Follow) (n : Node) (element : UInt8) (model : Model) (v : Value)
    (transition delay : Nat) (source : Source) (motion : Option Motion) : Node :=
  match n.get? element model with
  | none => n
  | some i =>
    let target := confine i v
    let transition := if model.isTransitional then transition else 0
    let delay := if model.isTransitional then delay else 0
    let stepping :=
      if motion.isSome then Stepping.none
      else .plan i.present target transition n.config.stepInterval.toNat
    let n := n.modify element model fun i =>
      { i with motion := motion, stepping := stepping, edgeResolved := false }
    let n := n.note (.requested ⟨element, model, target, transition, delay, source⟩ motion)
    n.program follow element model target transition delay source

def carryOut (follow : Follow) (n : Node) (r : Request) : Node :=
  match n.check r.element r.model r.value with
  | .success => n.start follow r.element r.model r.value r.transition r.delay r.source none
  | status => n.emit (.stateUpdate status r.element r.model r.source r.value none .idle)

/-- Run the rule of a binding for a value, one level deeper. -/
def obey (follow : Follow) (value : Value) (n : Node) (b : Binding Rule) : Node :=
  let n := n.note (.followed b.link value n.depth)
  (b.rule n.elements b.link.target value).foldl (carryOut follow) n

/-- Let the bindings of a state follow a value, unless too many are being followed already. The
first argument bounds the levels below this one. -/
def followBindings : Nat → Follow
  | 0, n, _, _, _ => n
  | room + 1, n, element, model, value =>
    match model.boundState? with
    | none => n
    | some state =>
      let bindings := n.bindings.matching element state
      if bindings = [] ∨ n.config.maxBindDepth.toNat ≤ n.depth then n
      else
        let deeper := bindings.foldl (obey (followBindings room) value)
          { n with depth := n.depth + 1 }
        { deeper with depth := deeper.depth - 1 }

def follow (n : Node) (element : UInt8) (model : Model) (value : Value) : Node :=
  followBindings n.config.maxBindDepth.toNat n element model value

def request (n : Node) (r : Request) : Node × Status :=
  (n.carryOut follow r, n.check r.element r.model r.value)

def halt (n : Node) (element : UInt8) (model : Model) : Node :=
  let n := n.cancel (transitionTimer element model)
  match n.get? element model with
  | none => n
  | some i =>
    if i.isIdle then n.modify element model fun i => { i with motion := none }
    else
      (n.modify element model fun i => { i with edgeResolved := true }).settle follow element model
        i.present i.source

/-- Show an interim value on an instance and let the bindings follow it. -/
def visit (n : Node) (element : UInt8) (model : Model) (v : Value) (source : Source) : Node :=
  (n.display element model v source).passOn follow element model v source

def stepOn (n : Node) (element : UInt8) (model : Model) (i : Instance) : Node :=
  let remaining := i.remaining - n.config.stepInterval.toNat
  let interim := i.present.shift i.stepping.increment
  let n := n.modify element model fun i => { i with stepping := i.stepping.next }
  let n := n.visit element model interim i.source
  if remaining = 0 then n.settle follow element model i.target i.source
  else (n.program follow element model i.target remaining 0 i.source).publish element model

def moveOn (n : Node) (element : UInt8) (model : Model) (i : Instance) (motion : Motion) : Node :=
  let next := i.present.shift motion.step
  if next = i.target then n.settle follow element model i.target i.source
  else
    let n := n.visit element model next i.source
    (n.program follow element model i.target motion.interval 0 i.source).publish element model

/-- The delay of a change has passed: it begins, and whoever waits for an answer gets it. -/
def endDelay (n : Node) (element : UInt8) (model : Model) (i : Instance) : Node :=
  let n := n.modify element model fun i => { i with delay := 0, pendingReply := none }
  let n := n.program follow element model i.target i.remaining 0 i.source
  match i.pendingReply with
  | some reply => n.sendStatus element model reply.dst reply.appKey reply.unicast
  | none => n

def onTransition (n : Node) (element : UInt8) (model : Model) : Node :=
  match n.get? element model with
  | none => n
  | some i =>
    if 0 < i.delay then n.endDelay element model i
    else if 0 < i.remaining then
      match i.motion with
      | some motion => n.moveOn element model i motion
      | none =>
        if i.stepping.isActive then n.stepOn element model i
        else n.settle follow element model i.target i.source
    else n

end Node

end MeshNode
