import MeshNode.Proofs.Replies.WaitingClients
import MeshNode.Proofs.Replies.SilentChanges
import MeshNode.Proofs.Isolation.IsolatedInstances
import MeshNode.Proofs.Node.WellFormedInstances

/-! # Answers are given once

A request that asks for an answer gets one: at once, unless its instance is then delayed, and else
when the delay has passed, if the instance was left alone until then. The answer reports the state
that the instance has at that time. Nothing else answers the request, and a request that asks for no
answer or is not accepted gets none.
-/

namespace MeshNode

def Message.ack : Message → Bool
  | .get _ => false
  | .set _ _ ack | .levelDelta _ ack | .levelMove _ ack => ack

namespace Node

variable {n n' n₀ n₁ : Node} {e : UInt8} {m : Model} {i : Instance} {c : Envelope}
  {message : Message} {ack : Bool} {d : Nat} {P : Node → Call → Prop}

/-- Only of models with transitions somebody can wait for an answer. -/
def WaitsRightly (n : Node) : Prop :=
  ∀ e m reply, n.awaited? e m = some reply → m.isTransitional = true

theorem WaitsRightly.step (h : n.WaitsRightly) (hn : n.Sound) (hs : Step P n n') :
    n'.WaitsRightly := by
  intro e m reply ha
  cases hs with
  | call x hx =>
    rcases awaited_handle hn.typed ha with ⟨hbefore, -⟩ | ⟨c, message, -, -, rfl, hk, -⟩
    · exact h e m reply hbefore
    · exact Message.isTransitional_of_tid? hk
  | @expiry horizon timer ts hpop =>
    have htyped := (hn.toSane.popped hpop).typed
    obtain ⟨e', m', rfl | rfl⟩ := timer_cases timer
    · exact h e m reply ((evolves_onTransition htyped e' m').awaited e m reply ha)
    · rw [onTimer_transaction] at ha
      have hkept : KeepsWaiting e m n (({ n with timers := ts } : Node).expired e' m') :=
        ((KeepsWaiting.refl n).timers ts).modify fun _ => rfl
      exact h e m reply (hkept.awaited.symm.trans ha)
  | passage hpop => exact h e m reply ha

end Node

end MeshNode
