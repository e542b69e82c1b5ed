import MeshNode.Node.Transition
import MeshNode.Params

/-! # Messages

What a node does with the requests of clients. It refuses malformed ones, recognises repeats,
applies the default transition time where none is given, and answers acknowledged requests: at
once, or when the delay of the change has passed.
-/

namespace MeshNode

/-- Who sent a message and how it was addressed. -/
structure Envelope where
  element : UInt8
  src : UInt16
  appKey : UInt16
  unicast : Bool
  deriving DecidableEq

/-- A message of a client, with the bytes of its parameters. -/
inductive Message where
  | get (model : Model)
  | set (model : Model) (params : List UInt8) (ack : Bool)
  | levelDelta (params : List UInt8) (ack : Bool)
  | levelMove (params : List UInt8) (ack : Bool)
  deriving DecidableEq

def Message.model : Message → Model
  | get m => m
  | set m .. => m
  | levelDelta .. | levelMove .. => .level

inductive Outcome where
  | accepted
  | duplicate
  | dropped (violations : List Violation)
  | noSuchModel
  deriving DecidableEq

def Envelope.reply (c : Envelope) : PendingReply := ⟨c.src, c.appKey, c.unicast⟩

namespace Node

/-- The default transition time of an element in milliseconds, zero if it has none. -/
def defaultTransition (n : Node) (element : UInt8) : Nat :=
  match n.present? element .defaultTransition with
  | some (.defaultTransition t) => t.millis
  | _ => 0

def timing (n : Node) (element : UInt8) : Option Timing → Nat × Nat
  | some t => (t.transition.millis, t.delay.toNat)
  | none => (n.defaultTransition element, 0)

/-- Remember the transaction of a message, for a limited time, and who waits for an answer. -/
def remember (n : Node) (c : Envelope) (model : Model) (tid : UInt8) (ack : Bool) : Node :=
  (n.modify c.element model fun i =>
    { i with
      transaction := ⟨c.src, tid⟩
      pendingReply := if ack then some c.reply else none }).arm
    (transactionTimer c.element model) n.config.dedupTimeout.toNat

def answer (n : Node) (c : Envelope) (model : Model) (reply : PendingReply) : Node :=
  n.sendStatus c.element model reply.dst reply.appKey reply.unicast

def answerUnlessDelayed (n : Node) (c : Envelope) (model : Model) : Node :=
  match n.get? c.element model with
  | none => n
  | some i =>
    if 0 < i.delay then n
    else
      match i.pendingReply with
      | some reply =>
        (n.modify c.element model fun i => { i with pendingReply := none }).answer c model reply
      | none => n

def startForClient (n : Node) (element : UInt8) (v : Value) (transition delay : Nat)
    (motion : Option Motion) : Node :=
  n.start follow element v.model v transition delay .client motion

def onSet (n : Node) (c : Envelope) (i : Instance) (p : Params Value) (ack : Bool) :
    Node × Outcome :=
  match i.transaction.verdict c.src p.tid with
  | .reject => (n, .duplicate)
  | .accept =>
    let (transition, delay) := n.timing c.element p.timing
    let n := n.remember c p.value.model p.tid ack
    let n := n.startForClient c.element p.value transition delay none
    (n.answerUnlessDelayed c p.value.model, .accepted)

/-- The level that a relative change starts from: that of its transaction, or the present one. -/
def deltaOrigin (i : Instance) (src : UInt16) (tid : UInt8) : Value :=
  if i.transaction.isRepeat src tid then i.deltaOrigin.getD i.present else i.present

/-- A relative change of a level. Repeats of a transaction adjust the same origin, so that a client
can send a drag as it goes. -/
def onDelta (n : Node) (c : Envelope) (i : Instance) (p : Params Int32) (ack : Bool) :
    Node × Outcome :=
  let (transition, delay) := n.timing c.element p.timing
  let origin := deltaOrigin i c.src p.tid
  let n := n.modify c.element .level fun i => { i with deltaOrigin := some origin }
  let n := n.remember c .level p.tid ack
  let n := n.startForClient c.element (origin.shift p.value.toInt) transition delay none
  (n.answerUnlessDelayed c .level, .accepted)

def onMove (n : Node) (c : Envelope) (i : Instance) (p : Params Level) (ack : Bool) :
    Node × Outcome :=
  match i.transaction.verdict c.src p.tid with
  | .reject => (n, .duplicate)
  | .accept =>
    let (transition, delay) := n.timing c.element p.timing
    let n := n.remember c .level p.tid ack
    let n :=
      if p.value = 0 then n.halt c.element .level
      else if 0 < transition then
        let motion := Motion.ofSpeed p.value.toInt transition n.config.moveInterval.toNat
        let bound : Level := if p.value < 0 then -32768 else 32767
        n.startForClient c.element (.level bound) motion.interval delay (some motion)
      else n
    (n.answerUnlessDelayed c .level, .accepted)

/-- A set request of a state without transitions: the value is stored, and bound states only
follow it at power-up. -/
def store (n : Node) (c : Envelope) (v : Value) (ack : Bool) : Node × Outcome :=
  let n := n.modify c.element v.model fun i =>
    { i.display v .client n.now with target := v, source := .client }
  let n := n.save c.element v.model
  let n := n.emit (.stateUpdate .success c.element v.model .client v none .idle)
  (if ack then n.answer c v.model c.reply else n, .accepted)

def withParams {α : Type} (n : Node) (p : Except (List Violation) α)
    (act : α → Node × Outcome) : Node × Outcome :=
  match p with
  | .ok a => act a
  | .error vs => (n, .dropped vs)

def setParams {α : Type} (width : Nat) (decode : Decoder α) (toValue : α → Value)
    (bytes : List UInt8) : Except (List Violation) (Params Value) :=
  (Params.transactional width decode bytes).map fun p => ⟨toValue p.value, p.tid, p.timing⟩

def process (n : Node) (c : Envelope) (i : Instance) : Message → Node × Outcome
  | .get m => (n.answer c m c.reply, .accepted)
  | .set .onOff bytes ack =>
    n.withParams (setParams 1 .onOff .onOff bytes) fun p => n.onSet c i p ack
  | .set .level bytes ack =>
    n.withParams (setParams 2 .level .level bytes) fun p => n.onSet c i p ack
  | .set .lightness bytes ack =>
    n.withParams (setParams 2 .lightness .lightness bytes) fun p => n.onSet c i p ack
  | .set .powerOnOff bytes ack =>
    n.withParams (Params.onPowerUp bytes) fun b => n.store c (.onPowerUp b) ack
  | .set .defaultTransition bytes ack =>
    n.withParams (Params.defaultTransition bytes) fun t => n.store c (.defaultTransition t) ack
  | .levelDelta bytes ack =>
    n.withParams (Params.transactional 4 .delta bytes) fun p => n.onDelta c i p ack
  | .levelMove bytes ack =>
    n.withParams (Params.movement bytes) fun p => n.onMove c i p ack

/-- Process a message to completion. -/
def receive (n : Node) (c : Envelope) (m : Message) : Node × Outcome :=
  match n.get? c.element m.model with
  | none => (n, .noSuchModel)
  | some i => n.process c i m

end Node

end MeshNode
