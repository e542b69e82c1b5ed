import MeshNode.Model

/-! # Outbound messages

What a node hands to the mesh: replies to a client and publications, their payload already encoded.
An outbox keeps them in the order in which they were handed over.
-/

namespace MeshNode

structure Reply where
  element : UInt8
  model : Model
  dst : UInt16
  appKey : UInt16
  ttl : UInt8
  payload : List UInt8
  /-- The least time to wait before sending, in milliseconds. -/
  minDelay : Nat
  /-- The longest time to wait before sending, in milliseconds. -/
  maxDelay : Nat
  deriving DecidableEq

namespace Reply

def defaultTtl : UInt8 := 0xFF

/-- The shortest wait before a response. -/
def minResponseDelay : Nat := 20

/-- The longest wait before a response: shorter if the request was for this node alone. -/
def maxResponseDelay (unicast : Bool) : Nat := if unicast then 50 else 500

end Reply

/-- A message to the publish address of a model. -/
structure Publication where
  element : UInt8
  model : Model
  payload : List UInt8
  deriving DecidableEq

inductive Outbound where
  | sent (reply : Reply)
  | published (publication : Publication)
  deriving DecidableEq

structure Outbox where
  messages : List Outbound
  deriving DecidableEq

namespace Outbox

def empty : Outbox := ⟨[]⟩

def push (b : Outbox) (m : Outbound) : Outbox := ⟨b.messages ++ [m]⟩

def replies (b : Outbox) : List Reply :=
  b.messages.filterMap fun | .sent r => some r | .published _ => none

def publications (b : Outbox) : List Publication :=
  b.messages.filterMap fun | .sent _ => none | .published p => some p

def take (b : Outbox) : List Outbound × Outbox := (b.messages, empty)

end Outbox

end MeshNode
