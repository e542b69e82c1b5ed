import MeshNode.Proofs.Transition.TimerProgress
import MeshNode.Proofs.Node.Steps

/-! # What steps make of one instance

A step that leaves an instance to itself is heeded there, and whatever the step, the last request
that an instance takes up in it sends the instance on its trip, unless it was overtaken.
-/

namespace MeshNode.Node

variable {n n' n₁ : Node} {e e' : UInt8} {m m' : Model} {x : Call} {c : Envelope}
  {message : Message}

/-- The call puts an end to what goes on in an instance or makes a client's request of it. -/
def Touches (n : Node) (e : UInt8) (m : Model) : Call → Prop
  | .receive c message => c.element = e ∧ message.model = m ∧ message ≠ .get m ∧
    (n.receive c message).2 = .accepted
  | .restore s => s.image.element = e ∧ s.image.model = m ∧ n.restore s = .ok (n.loaded s.image)
  | .reset => True
  | _ => False

theorem requestsFor_of_log (h : n'.log = n.log) (e : UInt8) (m : Model) :
    n'.requestsFor e m = n.requestsFor e m := by
  rw [requestsFor, requestsFor, h]

/-! ## Moves -/

/-- A move takes up a move at most before all else is heeded. -/
theorem Moves.cases (h : n.Moves e n₁) :
    n.KeepsToRequests n₁ ∨ n₁ = n.cancel (transitionTimer e .level) ∨
    ∃ n₂ new k d, n.Writes n₂ e .level new k d ∧ (∀ x ∈ new, x.2.isSome) ∧
      n₂.KeepsToRequests n₁ := by
  cases h with
  | stay => exact .inl (KeepsToRequests.refl n)
  | halt =>
    cases hi : n.get? e .level with
    | none =>
      have hi' : (n.cancel (transitionTimer e .level)).get? e .level = none := hi
      exact .inr (.inl (by simp only [Node.halt, hi']))
    | some i =>
      obtain ⟨n₂, hw, hh⟩ := halt_writes isAftermath_keepsToRequests hi
      exact .inr (.inr ⟨n₂, _, _, _, hw, by simp, hh⟩)
  | start bound t d motion _ =>
    cases hi : n.get? e .level with
    | none =>
      simp only [Node.start, hi]
      exact .inl (KeepsToRequests.refl n)
    | some i =>
      obtain ⟨n₂, hw, hh⟩ := start_writes (v := .level bound) (t := t) (d := d) (s := .client)
        isAftermath_keepsToRequests (fun _ n w => keepsToRequests_follow n e .level w)
          (some motion) hi
      exact .inr (.inr ⟨n₂, _, _, _, hw, by simp, hh⟩)

theorem Moves.keepsToRequestsAt (h : n.Moves e n₁) (hx : (e', m') ≠ (e, .level)) :
    n.KeepsToRequestsAt n₁ e' m' := by
  rcases h.cases with hh | rfl | ⟨n₂, new, k, d, hw, -, hh⟩
  · exact hh e' m'
  · exact .of_watch rfl rfl List.suffix_rfl rfl (watch_cancel_of_ne hx)
  · exact (hw.keepsToRequestsAt hx).trans (hh e' m')

theorem Moves.attends (h : n.Moves e n₁) (hn₁ : n₁.KeepsToRequests n') (e' : UInt8) (m' : Model) :
    n.Attends n' e' m' := by
  rcases h.cases with hh | rfl | ⟨n₂, new, k, d, hw, hnew, hh⟩
  · exact ((hh.trans hn₁) e' m').attends
  · exact (hn₁ e' m').attends.of_requestsFor rfl
  · by_cases hx : (e', m') = (e, .level)
    · obtain ⟨rfl, rfl⟩ := Prod.mk.injEq .. ▸ hx
      exact ⟨n₂, new, hw.requests, hnew, (hh.trans hn₁) _ _⟩
    · exact ⟨n₂, [], (hw.others e' m' hx).1, by simp, (hh.trans hn₁) e' m'⟩

/-! ## Calls -/

theorem keepsToRequestsAt_receive (hx : ¬ n.Touches e m (.receive c message)) :
    n.KeepsToRequestsAt (n.receive c message).1 e m := by
  have h := reception n c message
  rw [Touches] at hx
  generalize n.receive c message = res at h hx ⊢
  cases h with
  | absent | dropped | duplicate => exact KeepsToRequests.refl n e m
  | answered m' hm h => exact (KeepsToRequests.refl n).tells h e m
  | stored hk hv ht hget h =>
    have hne : (e, m) ≠ (c.element, message.model) := by
      rintro ⟨rfl, rfl⟩
      exact hx ⟨rfl, rfl, hget _, rfl⟩
    refine .trans ?_ ((KeepsToRequests.refl _).tells h e m)
    exact .of_watch rfl rfl List.suffix_rfl rfl (watch_modify_of_ne (hv ▸ hne))
  | @taken i k n₀ n₁ n' ack hi hk hr h₀ hlog h₁ h =>
    have hne : (e, m) ≠ (c.element, message.model) := by
      rintro ⟨rfl, rfl⟩
      refine hx ⟨rfl, rfl, ?_, rfl⟩
      rintro hget
      rw [hget] at hk
      cases hk
    have hremember : n₀.KeepsToRequestsAt (n₀.remember c message.model k ack) e m :=
      .of_watch rfl rfl Timers.armings_arm rfl (watch_remember e m)
    refine (h₀.keepsToRequests e m).trans (hremember.trans ?_)
    rcases h₁ with rfl | ⟨⟨bytes, ack', rfl⟩, hm⟩
    · exact h.keepsToRequests e m
    · exact (hm.keepsToRequestsAt hne).trans (h.keepsToRequests e m)

theorem keepsToRequestsAt_handle (hx : ¬ n.Touches e m x) :
    n.KeepsToRequestsAt (n.handle x) e m := by
  rcases handle_cases n x with h | ⟨table, h, -⟩ | rfl | ⟨s, rfl⟩ | ⟨c, message, rfl⟩
  · exact h.keepsToRequests e m
  · rw [h]
    exact .of_watch rfl rfl List.suffix_rfl rfl rfl
  · exact absurd trivial hx
  · rcases restore_cases n s with ⟨-, h⟩ | ⟨-, -, hok, h⟩
    · rw [h]
      exact KeepsToRequests.refl n e m
    · rw [h]
      refine .of_watch rfl rfl List.suffix_rfl rfl (watch_loaded ?_)
      rintro ⟨rfl, rfl⟩
      exact hx ⟨rfl, rfl, hok⟩
  · exact keepsToRequestsAt_receive hx

theorem attends_receive (n : Node) (c : Envelope) (message : Message) (e : UInt8) (m : Model) :
    n.Attends (n.receive c message).1 e m := by
  have h := reception n c message
  generalize n.receive c message = res at h ⊢
  cases h with
  | absent | dropped | duplicate => exact (KeepsToRequests.refl n e m).attends
  | answered m' hm h => exact ((KeepsToRequests.refl n).tells h e m).attends
  | stored hk hv ht hget h =>
    exact ((KeepsToRequests.refl _).tells h e m).attends.of_requestsFor rfl
  | taken ack hi hk hr h₀ hlog h₁ h =>
    rcases h₁ with rfl | ⟨-, hm⟩
    · exact (h.keepsToRequests e m).attends.of_requestsFor (requestsFor_of_log hlog e m)
    · exact (hm.attends h.keepsToRequests e m).of_requestsFor (requestsFor_of_log hlog e m)

theorem attends_handle (n : Node) (x : Call) (e : UInt8) (m : Model) :
    n.Attends (n.handle x) e m := by
  rcases handle_cases n x with h | ⟨table, h, -⟩ | rfl | ⟨s, rfl⟩ | ⟨c, message, rfl⟩
  · exact (h.keepsToRequests e m).attends
  · rw [h]
    exact (KeepsToRequests.refl _ e m).attends.of_requestsFor rfl
  · exact (KeepsToRequests.refl n.reset e m).attends.of_requestsFor rfl
  · rcases restore_cases n s with ⟨-, h⟩ | ⟨-, -, -, h⟩
    · rw [h]
      exact (KeepsToRequests.refl n e m).attends
    · rw [h]
      exact (KeepsToRequests.refl (n.loaded s.image) e m).attends.of_requestsFor rfl
  · exact attends_receive n c message e m

end MeshNode.Node
