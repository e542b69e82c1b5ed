import MeshNode.Event
import MeshNode.History
import MeshNode.LightMemory
import MeshNode.Progress
import MeshNode.Transaction

/-! # Model instances

The state of one model on one element. While it is idle its present value is the settled one;
during a delay or a transition it is heading for its target.
-/

namespace MeshNode

/-- Where to send the answer to a request whose change is delayed. -/
structure PendingReply where
  dst : UInt16
  appKey : UInt16
  unicast : Bool
  deriving DecidableEq

structure Instance where
  present : Value
  target : Value
  scenes : List (Option Value)
  /-- The length of the transition, or what is left of it at the last step, in milliseconds. -/
  remaining : Nat
  /-- The delay before the transition, in units of five milliseconds. -/
  delay : Nat
  /-- What asked for the latest change. -/
  source : Source
  transaction : Transaction
  pendingReply : Option PendingReply
  stepping : Stepping
  motion : Option Motion
  /-- The value that relative changes of the remembered transaction start from. -/
  deltaOrigin : Option Value
  /-- Whether bindings already followed the running change. -/
  edgeResolved : Bool
  light : LightMemory
  history : History
  isSaved : Bool
  deriving DecidableEq

namespace Instance

def new (m : Model) (sceneSlots : Nat) (historyLimit : UInt64) : Instance where
  present := .initial m
  target := .initial m
  scenes := List.replicate (if m.supportsScenes then sceneSlots else 0) none
  remaining := 0
  delay := 0
  source := .application
  transaction := .none
  pendingReply := none
  stepping := .none
  motion := none
  deltaOrigin := none
  edgeResolved := false
  light := .initial
  history := .empty historyLimit
  isSaved := false

def phase (i : Instance) : Phase :=
  if 0 < i.delay then .delayed else if 0 < i.remaining then .transitioning else .idle

def isIdle (i : Instance) : Bool := i.phase = .idle

def isMoving (i : Instance) : Bool := i.motion.isSome

/-- The value that the instance settles on. -/
def settled (i : Instance) : Value := if i.isIdle then i.present else i.target

def scene? (i : Instance) (slot : Nat) : Option Value := i.scenes[slot]?.join

/-- Show a value, with the change of it and a lit lamp's lightness remembered. -/
def display (i : Instance) (v : Value) (source : Source) (now : Nat) : Instance :=
  let change : Change := ⟨i.present, v, UInt64.ofNat now, source⟩
  { i with
    present := v
    light := i.light.noting v
    history := if change.isChange then i.history.record change else i.history }

def reset (i : Instance) : Instance :=
  { i with
    target := i.present
    remaining := 0
    delay := 0
    transaction := i.transaction.forget
    pendingReply := none
    stepping := .none
    motion := none
    deltaOrigin := none
    edgeResolved := false }

end Instance

abbrev Element := PerModel (Option Instance)

namespace Element

def empty : Element := .replicate none

def hosts (e : Element) (m : Model) : Bool := (e.get m).isSome

def instances (e : Element) : List (Model × Instance) :=
  Model.all.filterMap fun m => (e.get m).map (m, ·)

end Element

end MeshNode
