import MeshNode.Binding
import MeshNode.Config.Basic
import MeshNode.Outbound
import MeshNode.Snapshot.Basic
import MeshNode.Timers

/-! # Nodes

A node holds its elements, its bindings, its timers and a log of everything that it did to the
outside: events heard by the application, images saved, messages sent and binding rules run.
-/

namespace MeshNode

/-- A request to change the state of an instance. -/
structure Request where
  element : UInt8
  model : Model
  value : Value
  /-- The length of the transition in milliseconds. -/
  transition : Nat
  /-- The delay before it in units of five milliseconds. -/
  delay : Nat
  source : Source
  deriving DecidableEq

namespace Request

def application (element : UInt8) (value : Value) (transition delay : Nat) : Request :=
  ⟨element, value.model, value, transition, delay, .application⟩

/-- The immediate change that a binding asks for. -/
def bound (element : UInt8) (value : Value) : Request :=
  ⟨element, value.model, value, 0, 0, .binding⟩

/-- The change that a scene asks for. -/
def scene (element : UInt8) (model : Model) (value : Value) (transition : Nat) : Request :=
  ⟨element, model, value, transition, 0, .scene⟩

end Request

def instance? (elements : List Element) (element : UInt8) (model : Model) : Option Instance :=
  elements[element.toNat]?.bind fun e => e.get model

/-- How a binding carries a change across: the requests that it makes, from the elements as they
stand, its target element and the value to follow. -/
abbrev Rule := List Element → UInt8 → Value → List Request

inductive Effect where
  | heard (listener : String) (event : Event)
  | saved (image : Image)
  | out (message : Outbound)
  | requested (request : Request) (motion : Option Motion)
  /-- The rule of a binding was run for a value, at some depth of bindings triggering bindings. -/
  | followed (link : Link) (value : Value) (depth : Nat)
  deriving DecidableEq

/-- A node of the mesh. -/
structure Node where
  config : Config
  elements : List Element
  bindings : BindingTable Rule
  timers : Timers
  listeners : Listeners
  /-- Whether outbound messages are handed to anybody. -/
  isConnected : Bool
  /-- How many bindings are being followed inside one another. -/
  depth : Nat
  /-- Everything done to the outside, latest first. -/
  log : List Effect

namespace Node

/-- The timer for the changes of an instance. -/
def transitionTimer (element : UInt8) (model : Model) : Timer := ⟨element, model, .transition⟩

/-- The timer for the remembered transaction of an instance. -/
def transactionTimer (element : UInt8) (model : Model) : Timer := ⟨element, model, .transaction⟩

def now (n : Node) : Nat := n.timers.now

def get? (n : Node) (element : UInt8) (model : Model) : Option Instance :=
  instance? n.elements element model

def hosts (n : Node) (element : UInt8) (model : Model) : Bool := (n.get? element model).isSome

def present? (n : Node) (element : UInt8) (model : Model) : Option Value :=
  (n.get? element model).map Instance.present

def instances (n : Node) : List (UInt8 × Model × Instance) :=
  n.elements.zipIdx.flatMap fun (e, k) => e.instances.map fun (m, i) => (UInt8.ofNat k, m, i)

def modify (n : Node) (element : UInt8) (model : Model) (f : Instance → Instance) : Node :=
  { n with
    elements := n.elements.modify element.toNat fun e => e.set model ((e.get model).map f) }

def note (n : Node) (e : Effect) : Node := { n with log := e :: n.log }

def emit (n : Node) (e : Event) : Node :=
  match n.listeners.hearer? e with
  | some listener => n.note (.heard listener e)
  | none => n

def handOver (n : Node) (m : Outbound) : Node := if n.isConnected then n.note (.out m) else n

/-- Save an instance, if its model is saved. -/
def save (n : Node) (element : UInt8) (model : Model) : Node :=
  match n.get? element model with
  | some i => if i.isSaved then n.note (.saved (.capture element model i)) else n
  | none => n

def arm (n : Node) (timer : Timer) (after : Nat) : Node :=
  { n with timers := n.timers.arm timer after }

def cancel (n : Node) (timer : Timer) : Node := { n with timers := n.timers.cancel timer }

def listen (n : Node) (model : Model) (name : String) : Node :=
  { n with listeners := n.listeners.register model name }

def bind (n : Node) (link : Link) (rule : Rule) : Node × Registration :=
  let (table, registration) := n.bindings.register link rule
  ({ n with bindings := table }, registration)

/-- Have the settled states of an instance saved from now on. -/
def keepSaved (n : Node) (element : UInt8) (model : Model) : Node :=
  n.modify element model fun i => { i with isSaved := true }

end Node

end MeshNode
