import MeshNode.Node.Basic

/-! # Building a node

A plan lists the elements of a node and the models on each. A plan that is sound becomes a node
with no bindings and nobody listening.
-/

namespace MeshNode

/-- The models of an element, the values that they start from and which of them are saved. -/
structure ElementPlan where
  models : List Model
  initial : List Value
  saved : List Model

inductive BuildError where
  | noElements
  | tooManyElements (count : Nat)
  | emptyElement (element : UInt8)
  | duplicateModel (element : UInt8) (model : Model)
  | illegalInitialValue (element : UInt8) (model : Model)
  | unknownModel (element : UInt8) (model : Model)
  | invalidConfig (cause : ConfigError)
  deriving DecidableEq

namespace BuildError

def name : BuildError → String
  | noElements => "NoElements"
  | tooManyElements _ => "TooManyElements"
  | emptyElement _ => "EmptyElement"
  | duplicateModel .. => "DuplicateModel"
  | illegalInitialValue .. => "IllegalInitialValue"
  | unknownModel .. => "UnknownModel"
  | invalidConfig _ => "InvalidConfig"

def message : BuildError → String
  | noElements => "No elements defined. Add at least one element"
  | tooManyElements count =>
    "Too many elements (" ++ toString count ++ "). At most 256 are addressable"
  | emptyElement e =>
    "Element " ++ toString e.toNat ++ " hosts no models. Call .model(kind) on its builder"
  | duplicateModel e m => "Element " ++ toString e.toNat ++ " already hosts " ++ m.name
  | illegalInitialValue e m =>
    "Initial value for " ++ m.name ++ " on element " ++ toString e.toNat ++ " is not a legal value"
  | unknownModel e m => "Element " ++ toString e.toNat ++ " does not host " ++ m.name
  | invalidConfig cause => "Invalid configuration: " ++ cause.message

end BuildError

namespace ElementPlan

def single (m : Model) : ElementPlan := ⟨[m], [], []⟩

def addModel (p : ElementPlan) (m : Model) : ElementPlan := { p with models := p.models ++ [m] }

def place (config : Config) (index : UInt8) (e : Element) (m : Model) :
    Except BuildError Element :=
  if e.hosts m then .error (.duplicateModel index m)
  else .ok (e.set m (some (.new m config.sceneSlots.toNat config.historyLimit)))

def initialise (index : UInt8) (e : Element) (v : Value) : Except BuildError Element :=
  if v.isLegal then
    match e.get v.model with
    | some i => .ok (e.set v.model (some { i with present := v, target := v }))
    | none => .error (.unknownModel index v.model)
  else .error (.illegalInitialValue index v.model)

def keepSaved (index : UInt8) (e : Element) (m : Model) : Except BuildError Element :=
  match e.get m with
  | some i => .ok (e.set m (some { i with isSaved := true }))
  | none => .error (.unknownModel index m)

/-- Build the element: its models, then their values, then which of them are saved. -/
def build (config : Config) (index : UInt8) (p : ElementPlan) : Except BuildError Element := do
  if p.models = [] then throw (.emptyElement index)
  let e ← p.models.foldlM (place config index) Element.empty
  let e ← p.initial.foldlM (initialise index) e
  p.saved.foldlM (keepSaved index) e

end ElementPlan

structure NodePlan where
  config : Config
  elements : List ElementPlan

namespace NodePlan

def addElement (p : NodePlan) (e : ElementPlan) : NodePlan :=
  { p with elements := p.elements ++ [e] }

def addElements (p : NodePlan) (m : Model) (count : Nat) : NodePlan :=
  { p with elements := p.elements ++ List.replicate count (.single m) }

def addModel (p : NodePlan) (m : Model) : NodePlan :=
  match p.elements.getLast? with
  | some e => { p with elements := p.elements.dropLast ++ [e.addModel m] }
  | none => p.addElement (.single m)

def maxElements : Nat := 256

def buildElements (config : Config) : Nat → List ElementPlan → Except BuildError (List Element)
  | _, [] => .ok []
  | k, p :: ps => do
    let e ← p.build config (UInt8.ofNat k)
    return e :: (← buildElements config (k + 1) ps)

/-- Build the node: check the configuration, then the number of elements, then each in turn. -/
def build (p : NodePlan) (timers : Timers) (isConnected : Bool) : Except BuildError Node := do
  let config ← p.config.checked.mapError .invalidConfig
  if p.elements = [] then throw .noElements
  if maxElements < p.elements.length then throw (.tooManyElements p.elements.length)
  let elements ← buildElements config 0 p.elements
  return {
    config, elements, timers, isConnected
    bindings := .withCapacity config.bindingCapacity.toNat
    listeners := .none
    depth := 0
    log := [] }

end NodePlan

end MeshNode
