import MeshNode.Node.Clock
import MeshNode.Node.Light
import MeshNode.Node.Message
import MeshNode.Node.Restore
import MeshNode.Node.Rules
import MeshNode.Node.Scene

/-! # Runs

A node changes by calls of its interface and by the passing of time. A run is a list of both.
-/

namespace MeshNode

inductive Call where
  | receive (c : Envelope) (message : Message)
  | request (r : Request)
  | query (element : UInt8) (model : Model)
  | publish (element : UInt8) (model : Model)
  | publishPeriodically (element : UInt8) (model : Model)
  | sendStatus (element : UInt8) (model : Model) (dst appKey : UInt16) (unicast : Bool)
  | storeScene (element : UInt8) (slot : Nat)
  | recallScene (element : UInt8) (slot transition : Nat)
  | powerUp
  | setLightDefault (element : UInt8) (default : Lightness)
  | setLightRange (element : UInt8) (lo hi : Lightness)
  | reset
  | restore (s : Snapshot)
  | listen (model : Model) (name : String)
  | keepSaved (element : UInt8) (model : Model)
  | bind (link : Link) (rule : Rule)
  | bindLightnessToLevel (lightness level : UInt8)
  | bindLightnessToOnOff (lightness onOff : UInt8)
  | bindOnOffToOnPowerUp (power onOff : UInt8)
  | bindLightnessToOnPowerUp (power lightness : UInt8)

/-- A call, or the passing of time by or to a number of milliseconds. -/
inductive Operation where
  | call (x : Call)
  | advance (ms : Nat)
  | advanceTo (horizon : Nat)

namespace Node

/-- The node after a call. A snapshot that cannot be loaded changes nothing. -/
def handle (n : Node) : Call → Node
  | .receive c message => (n.receive c message).1
  | .request r => (n.request r).1
  | .query e m => (n.query e m).1
  | .publish e m => n.publish e m
  | .publishPeriodically e m => (n.publishPeriodically e m).1
  | .sendStatus e m dst appKey unicast => n.sendStatus e m dst appKey unicast
  | .storeScene e slot => (n.storeScene e slot).1
  | .recallScene e slot transition => (n.recallScene e slot transition).1
  | .powerUp => n.powerUp.1
  | .setLightDefault e default => (n.setLightDefault e default).1
  | .setLightRange e lo hi => (n.setLightRange e lo hi).1
  | .reset => n.reset
  | .restore s => (n.restore s).toOption.getD n
  | .listen m name => n.listen m name
  | .keepSaved e m => n.keepSaved e m
  | .bind link rule => (n.bind link rule).1
  | .bindLightnessToLevel lightness level => (n.bindLightnessToLevel lightness level).1
  | .bindLightnessToOnOff lightness onOff => (n.bindLightnessToOnOff lightness onOff).1
  | .bindOnOffToOnPowerUp power onOff => (n.bindOnOffToOnPowerUp power onOff).1
  | .bindLightnessToOnPowerUp power lightness => (n.bindLightnessToOnPowerUp power lightness).1

def perform (n : Node) : Operation → Node
  | .call x => n.handle x
  | .advance ms => n.advance ms
  | .advanceTo horizon => n.advanceTo horizon

def run (n : Node) (ops : List Operation) : Node := ops.foldl perform n

end Node

end MeshNode
