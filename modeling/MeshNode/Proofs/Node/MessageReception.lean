import MeshNode.Proofs.Transition.MoveSpeeds
import MeshNode.Proofs.Node.CallParts

/-! # Messages received

Everything that can become of a message: it is dropped, answered or stored, refused as a repeat, or
taken up with its transaction remembered first.
-/

namespace MeshNode

def Message.tid? : Message → Option UInt8
  | .set .onOff bytes _ => (Node.setParams 1 .onOff .onOff bytes).toOption.map Params.tid
  | .set .level bytes _ => (Node.setParams 2 .level .level bytes).toOption.map Params.tid
  | .set .lightness bytes _ =>
    (Node.setParams 2 .lightness .lightness bytes).toOption.map Params.tid
  | .levelDelta bytes _ => (Params.transactional 4 .delta bytes).toOption.map Params.tid
  | .levelMove bytes _ => (Params.movement bytes).toOption.map Params.tid
  | _ => none

/-- Whether repeats of the message are taken up like the first of its transaction. -/
def Message.isDelta : Message → Bool
  | .levelDelta .. => true
  | _ => false

namespace Node

variable {n n' n₀ n₁ : Node} {c : Envelope} {message : Message} {i : Instance} {ack : Bool}

def stored (n : Node) (e : UInt8) (v : Value) : Node :=
  ((n.modify e v.model fun i =>
    { i.display v .client n.now with target := v, source := .client }).save e v.model).emit
      (.stateUpdate .success e v.model .client v none .idle)

theorem store_eq (n : Node) (c : Envelope) (v : Value) (ack : Bool) : n.store c v ack =
    (if ack then (n.stored c.element v).answer c v.model c.reply else n.stored c.element v,
      .accepted) :=
  rfl

/-- What a move makes of a level before anybody is answered. -/
inductive Moves (n : Node) (e : UInt8) : Node → Prop where
  | stay : Moves n e n
  | halt : Moves n e (n.halt e .level)
  | start (bound : Level) (t d : Nat) (motion : Motion) (hm : motion.LeadsTo (.level bound)) :
    Moves n e (n.start follow e .level (.level bound) t d .client (some motion))

inductive Reception (n : Node) (c : Envelope) (message : Message) : Node × Outcome → Prop where
  | absent (h : n.get? c.element message.model = none) : Reception n c message (n, .noSuchModel)
  | dropped {vs : List Violation} (hk : message.tid? = none) :
    Reception n c message (n, .dropped vs)
  | duplicate {i : Instance} {k : UInt8} (hi : n.get? c.element message.model = some i)
    (hk : message.tid? = some k) (hd : message.isDelta = false)
    (hr : i.transaction.isRepeat c.src k = true) : Reception n c message (n, .duplicate)
  | answered {n' : Node} (m : Model) (hm : message = .get m) (h : n.Tells n') :
    Reception n c message (n', .accepted)
  | stored {n' : Node} {v : Value} (hk : message.tid? = none) (hv : v.model = message.model)
    (ht : message.model.isTransitional = false) (hget : ∀ m, message ≠ .get m)
    (h : (n.modify c.element v.model fun i =>
      { i.display v .client n.now with target := v, source := .client }).Tells n') :
    Reception n c message (n', .accepted)
  | taken {i : Instance} {k : UInt8} {n₀ n₁ n' : Node} (ack : Bool)
    (hi : n.get? c.element message.model = some i) (hk : message.tid? = some k)
    (hr : message.isDelta = true ∨ i.transaction.isRepeat c.src k = false) (h₀ : n.Works n₀)
    (hlog : n₀.log = n.log)
    (h₁ : n₁ = n₀.remember c message.model k ack ∨
      (∃ bytes ack', message = .levelMove bytes ack') ∧
        (n₀.remember c message.model k ack).Moves c.element n₁)
    (h : n₁.Works n') : Reception n c message (n', .accepted)

theorem works_answerUnlessDelayed (n : Node) (c : Envelope) (m : Model) :
    n.Works (n.answerUnlessDelayed c m) := by
  unfold answerUnlessDelayed
  split
  · exact .refl n
  · split
    · exact .refl n
    · split
      · have hbooks : n.Works (n.modify c.element m fun i => { i with pendingReply := none }) :=
          .books c.element m (fun _ => rfl) (fun _ => rfl) (fun _ => .inr rfl) fun _ => rfl
        exact hbooks.trans (.tells (tells_sendStatus _ c.element m _ _ _))
      · exact .refl n

theorem reception_onSet {p : Params Value} (hi : n.get? c.element message.model = some i)
    (hk : message.tid? = some p.tid) (hd : message.isDelta = false)
    (hv : p.value.model = message.model) : Reception n c message (n.onSet c i p ack) := by
  unfold onSet Transaction.verdict
  cases hr : i.transaction.isRepeat c.src p.tid with
  | true => exact .duplicate hi hk hd hr
  | false =>
    refine .taken ack hi hk (.inr hr) (.refl n) rfl (.inl rfl) ?_
    rw [← hv]
    exact .trans (.start c.element p.value _ _ .client) (works_answerUnlessDelayed _ c _)

theorem reception_onDelta {bytes : List UInt8} {p : Params Int32}
    (hi : n.get? c.element .level = some i)
    (hk : (Message.levelDelta bytes ack).tid? = some p.tid) :
    Reception n c (.levelDelta bytes ack) (n.onDelta c i p ack) := by
  have hbooks : n.Works (n.modify c.element .level fun j =>
      { j with deltaOrigin := some (deltaOrigin i c.src p.tid) }) :=
    .books c.element .level (fun _ => rfl) (fun _ => rfl) (fun _ => .inl rfl) fun _ => rfl
  refine .taken ack hi hk (.inl rfl) hbooks rfl (.inl rfl) ?_
  exact .trans (.start c.element _ _ _ .client) (works_answerUnlessDelayed _ c .level)

theorem reception_onMove {bytes : List UInt8} {p : Params Level}
    (hi : n.get? c.element .level = some i)
    (hk : (Message.levelMove bytes ack).tid? = some p.tid) :
    Reception n c (.levelMove bytes ack) (n.onMove c i p ack) := by
  unfold onMove Transaction.verdict
  cases hr : i.transaction.isRepeat c.src p.tid with
  | true => exact .duplicate hi hk rfl hr
  | false =>
    obtain ⟨transition, delay⟩ := n.timing c.element p.timing
    refine .taken ack hi hk (.inr hr) (.refl n) rfl (.inr ⟨⟨bytes, ack, rfl⟩, ?_⟩)
      (works_answerUnlessDelayed _ c .level)
    split
    · exact .halt
    next hspeed =>
      split
      · exact .start _ _ _ _ (Motion.leadsTo_ofSpeed hspeed ..)
      · exact .stay

theorem reception_store {v : Value} (hk : message.tid? = none) (hv : v.model = message.model)
    (ht : message.model.isTransitional = false) (hget : ∀ m, message ≠ .get m) :
    Reception n c message (n.store c v ack) := by
  unfold store
  dsimp only
  refine .stored hk hv ht hget ?_
  have hsaved := (tells_save (n.modify c.element v.model fun i =>
    { i.display v .client n.now with target := v, source := .client }) c.element v.model).trans
      (tells_emit _ (.stateUpdate .success c.element v.model .client v none .idle))
  split
  · exact hsaved.trans (tells_sendStatus _ c.element v.model _ _ _)
  · exact hsaved

theorem reception_withParams {α : Type} {p : Except (List Violation) α} {act : α → Node × Outcome}
    (hok : ∀ a, p = .ok a → Reception n c message (act a))
    (herror : ∀ vs, p = .error vs → message.tid? = none) :
    Reception n c message (n.withParams p act) := by
  unfold withParams
  split
  next a => exact hok a rfl
  next vs => exact .dropped (herror vs rfl)

theorem model_of_setParams {α : Type} {width : Nat} {decode : Decoder α} {toValue : α → Value}
    {bytes : List UInt8} {p : Params Value} {m : Model} (hm : ∀ a, (toValue a).model = m)
    (h : setParams width decode toValue bytes = .ok p) : p.value.model = m := by
  unfold setParams at h
  cases hp : Params.transactional width decode bytes with
  | error vs => simp [hp, Except.map] at h
  | ok q =>
    obtain rfl : (⟨toValue q.value, q.tid, q.timing⟩ : Params Value) = p := by
      simpa [hp, Except.map] using h
    exact hm q.value

/-- A message with a well-formed transaction goes on to `act`, any other is dropped. -/
theorem reception_params {α : Type} {p : Except (List Violation) (Params α)}
    {act : Params α → Node × Outcome} (hk : message.tid? = p.toOption.map Params.tid)
    (hact : ∀ a, p = .ok a → message.tid? = some a.tid → Reception n c message (act a)) :
    Reception n c message (n.withParams p act) := by
  refine reception_withParams (fun a ha => hact a ha ?_) fun vs hvs => ?_
  · rw [hk, ha]
    rfl
  · rw [hk, hvs]
    rfl

theorem reception (n : Node) (c : Envelope) (message : Message) :
    Reception n c message (n.receive c message) := by
  unfold receive
  split
  next h => exact .absent h
  next i hi =>
    unfold process
    split
    next m => exact .answered m rfl (tells_sendStatus n c.element m _ _ _)
    next =>
      exact reception_params rfl fun p hp hk =>
        reception_onSet hi hk rfl (model_of_setParams (fun _ => rfl) hp)
    next =>
      exact reception_params rfl fun p hp hk =>
        reception_onSet hi hk rfl (model_of_setParams (fun _ => rfl) hp)
    next =>
      exact reception_params rfl fun p hp hk =>
        reception_onSet hi hk rfl (model_of_setParams (fun _ => rfl) hp)
    next =>
      exact reception_withParams (fun _ _ => reception_store rfl rfl rfl (by simp)) fun _ _ => rfl
    next =>
      exact reception_withParams (fun _ _ => reception_store rfl rfl rfl (by simp)) fun _ _ => rfl
    next => exact reception_params rfl fun p _ hk => reception_onDelta hi hk
    next => exact reception_params rfl fun p _ hk => reception_onMove hi hk

theorem receive_eq_self (h : (n.receive c message).2 ≠ .accepted) :
    (n.receive c message).1 = n := by
  have hr := reception n c message
  generalize n.receive c message = res at hr h ⊢
  cases hr with
  | absent | dropped | duplicate => rfl
  | answered | stored | taken => exact absurd rfl h

end Node

end MeshNode
