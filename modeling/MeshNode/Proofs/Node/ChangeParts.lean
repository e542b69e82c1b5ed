import MeshNode.Proofs.Isolation.NodePart

/-! # What changes are made of

Whatever a node does for an instance is put together from a few things: it changes the instance and
the timers, notes effects that are about the instance, and lets bindings follow its state. What each
of them keeps, every change of state keeps, whichever way the bindings are followed.
-/

namespace MeshNode.Node

variable {n n' n₁ : Node} {e : UInt8} {m : Model} {i : Instance} {follow : Follow}
  {P : UInt8 → Model → Prop} {v w : Value} {t d : Nat} {s : Source} {motion : Option Motion}
  {r : Request}

/-- The first node becomes the second by what is done for instances with a property. -/
inductive DoneFor (follow : Follow) (P : UInt8 → Model → Prop) : Node → Node → Prop where
  | refl (n : Node) : DoneFor follow P n n
  | modify {n : Node} {e : UInt8} {m : Model} (h : P e m) (f : Instance → Instance) :
    DoneFor follow P n (n.modify e m f)
  | timers {n : Node} (timers : Timers) : DoneFor follow P n { n with timers }
  | note {n : Node} {e : UInt8} {m : Model} {x : Effect} (hx : x.subject? = some (e, m))
    (h : P e m) : DoneFor follow P n (n.note x)
  | follow {n : Node} {e : UInt8} {m : Model} (h : P e m) (v : Value) :
    DoneFor follow P n (follow n e m v)
  | trans {n n₁ n' : Node} : DoneFor follow P n n₁ → DoneFor follow P n₁ n' → DoneFor follow P n n'

section Instance

variable (h : P e m)
include h

/-! ## Telling the outside -/

theorem doneFor_emit (n : Node) {x : Event} (he : x.element = e) (hm : x.model = m) :
    n.DoneFor follow P (n.emit x) := by
  unfold emit
  split
  · exact .note (by rw [Effect.subject?, he, hm]) h
  · exact .refl n

theorem doneFor_handOver (n : Node) {x : Outbound} (hx : (Effect.out x).subject? = some (e, m)) :
    n.DoneFor follow P (n.handOver x) := by
  unfold handOver
  split
  · exact .note hx h
  · exact .refl n

theorem doneFor_publish (n : Node) : n.DoneFor follow P (n.publish e m) := by
  unfold publish
  split
  · exact doneFor_handOver h n rfl
  · exact .refl n

theorem doneFor_sendStatus (n : Node) (dst appKey : UInt16) (unicast : Bool) :
    n.DoneFor follow P (n.sendStatus e m dst appKey unicast) := by
  unfold sendStatus
  split
  · exact doneFor_handOver h n rfl
  · exact .refl n

theorem doneFor_save (n : Node) : n.DoneFor follow P (n.save e m) := by
  unfold save
  split
  · split
    · exact .note rfl h
    · exact .refl n
  · exact .refl n

theorem doneFor_announce (n : Node) : n.DoneFor follow P (n.announce e m) := by
  unfold announce
  split
  · exact doneFor_emit h n rfl rfl
  · exact .refl n

/-! ## Changes of state -/

theorem doneFor_display (n : Node) : n.DoneFor follow P (n.display e m w s) := .modify h _

theorem doneFor_passOn (n : Node) : n.DoneFor follow P (n.passOn follow e m w s) := by
  unfold passOn
  split
  · exact .follow h w
  · exact .refl n

theorem doneFor_settle (n : Node) : n.DoneFor follow P (n.settle follow e m w s) := by
  unfold settle
  split
  · exact .refl n
  · refine .trans ?_ (((doneFor_publish h _).trans (doneFor_save h _)).trans (doneFor_announce h _))
    split
    · exact .trans (.modify h _) (doneFor_display h _)
    · exact .trans (.trans (.modify h _) (doneFor_display h _)) (doneFor_passOn h _)

theorem doneFor_embark (n : Node) {stepped : Bool} :
    n.DoneFor follow P (n.embark follow e m w t s stepped) := by
  unfold embark
  refine .trans ?_ (doneFor_announce h _)
  split
  · dsimp only
    split
    · exact .trans (.trans (.trans (.timers _) (doneFor_display h _)) (.follow h w)) (.modify h _)
    · exact .trans (.timers _) (doneFor_display h _)
  · exact .timers _

theorem doneFor_program (n : Node) : n.DoneFor follow P (n.program follow e m w t d s) := by
  unfold program
  split
  · exact .refl n
  · dsimp only
    split
    · exact .trans (.trans (.modify h _) (.timers _)) (doneFor_announce h _)
    · split
      · exact .trans (.modify h _) (doneFor_embark h _)
      · exact .trans (.trans (.modify h _) (.timers _)) (doneFor_settle h _)

theorem doneFor_start (n : Node) : n.DoneFor follow P (n.start follow e m v t d s motion) := by
  unfold start
  split
  · exact .refl n
  · exact .trans (.trans (.modify h _) (.note rfl h)) (doneFor_program h _)

omit h in
theorem doneFor_carryOut (h : P r.element r.model) (n : Node) :
    n.DoneFor follow P (n.carryOut follow r) := by
  unfold carryOut
  split
  · exact doneFor_start h n
  · exact doneFor_emit h n rfl rfl

omit h in
theorem doneFor_foldl {α : Type} {f : Node → α → Node} {as : List α}
    (hf : ∀ n, ∀ a ∈ as, DoneFor follow P n (f n a)) (n : Node) :
    n.DoneFor follow P (as.foldl f n) :=
  List.foldlRecOn as f (.refl n) fun n' h a ha => .trans h (hf n' a ha)

/-! ## Progress -/

theorem doneFor_visit (n : Node) : n.DoneFor Node.follow P (n.visit e m w s) :=
  .trans (doneFor_display h n) (doneFor_passOn h _)

theorem doneFor_halt (n : Node) : n.DoneFor Node.follow P (n.halt e m) := by
  unfold halt
  dsimp only
  split
  · exact .timers _
  · split
    · exact .trans (.timers _) (.modify h _)
    · exact .trans (.trans (.timers _) (.modify h _)) (doneFor_settle h _)

theorem doneFor_stepOn (n : Node) : n.DoneFor Node.follow P (n.stepOn e m i) := by
  unfold stepOn
  dsimp only
  split
  · exact .trans (.trans (.modify h _) (doneFor_visit h _)) (doneFor_settle h _)
  · exact .trans (.trans (.trans (.modify h _) (doneFor_visit h _)) (doneFor_program h _))
      (doneFor_publish h _)

theorem doneFor_moveOn (n : Node) (k : Motion) : n.DoneFor Node.follow P (n.moveOn e m i k) := by
  unfold moveOn
  dsimp only
  split
  · exact doneFor_settle h n
  · exact .trans (.trans (doneFor_visit h n) (doneFor_program h _)) (doneFor_publish h _)

theorem doneFor_endDelay (n : Node) : n.DoneFor Node.follow P (n.endDelay e m i) := by
  unfold endDelay
  dsimp only
  split
  · exact .trans (.trans (.modify h _) (doneFor_program h _)) (doneFor_sendStatus h _ _ _ _)
  · exact .trans (.modify h _) (doneFor_program h _)

theorem doneFor_onTransition (n : Node) : n.DoneFor Node.follow P (n.onTransition e m) := by
  unfold onTransition
  split
  · exact .refl n
  · split
    · exact doneFor_endDelay h n
    · split
      · split
        · exact doneFor_moveOn h n _
        · split
          · exact doneFor_stepOn h n
          · exact doneFor_settle h n
      · exact .refl n

omit h in
theorem doneFor_onTimer {timer : Timer} (h : P timer.element timer.model) (n : Node) :
    n.DoneFor Node.follow P (n.onTimer timer) := by
  unfold onTimer
  split
  · exact doneFor_onTransition h n
  · exact .modify h _

end Instance

/-! ## Messages -/

section Message

variable {c : Envelope} {ack : Bool}

theorem doneFor_remember (h : P c.element m) (n : Node) {k : UInt8} :
    n.DoneFor follow P (n.remember c m k ack) :=
  .trans (.modify h _) (.timers _)

theorem doneFor_answerUnlessDelayed (h : P c.element m) (n : Node) :
    n.DoneFor follow P (n.answerUnlessDelayed c m) := by
  unfold answerUnlessDelayed
  split
  · exact .refl n
  · split
    · exact .refl n
    · split
      · exact .trans (.modify h _) (doneFor_sendStatus h _ _ _ _)
      · exact .refl n

theorem doneFor_onSet {p : Params Value} (h : P c.element p.value.model) (n : Node) :
    n.DoneFor Node.follow P (n.onSet c i p ack).1 := by
  unfold onSet
  split
  · exact .refl n
  · exact .trans (.trans (doneFor_remember h n) (doneFor_start h _))
      (doneFor_answerUnlessDelayed h _)

theorem doneFor_onDelta {p : Params Int32} (h : P c.element .level)
    (hv : P c.element (deltaOrigin i c.src p.tid).model) (n : Node) :
    n.DoneFor Node.follow P (n.onDelta c i p ack).1 := by
  rw [← Value.model_shift _ p.value.toInt] at hv
  exact .trans (.trans (.trans (.modify h _) (doneFor_remember h _)) (doneFor_start hv _))
    (doneFor_answerUnlessDelayed h _)

theorem doneFor_onMove {p : Params Level} (h : P c.element .level) (n : Node) :
    n.DoneFor Node.follow P (n.onMove c i p ack).1 := by
  unfold onMove
  split
  · exact .refl n
  · have hremember : n.DoneFor Node.follow P (n.remember c .level p.tid ack) := doneFor_remember h n
    refine .trans (hremember.trans ?_) (doneFor_answerUnlessDelayed h _)
    split
    · exact doneFor_halt h _
    · split
      · exact doneFor_start h _
      · exact .refl _

theorem doneFor_store (h : P c.element v.model) (n : Node) :
    n.DoneFor Node.follow P (n.store c v ack).1 := by
  have hstored : n.DoneFor Node.follow P (n.stored c.element v) :=
    .trans (.trans (.modify h _) (doneFor_save h _)) (doneFor_emit h _ rfl rfl)
  rw [store_eq]
  dsimp only
  split
  · exact hstored.trans (doneFor_sendStatus h _ _ _ _)
  · exact hstored

theorem doneFor_withParams {α : Type} {p : Except (List Violation) α} {act : α → Node × Outcome}
    (h : ∀ a, p = .ok a → n.DoneFor follow P (act a).1) :
    n.DoneFor follow P (n.withParams p act).1 := by
  unfold withParams
  split
  next a => exact h a rfl
  next => exact .refl n

/-- A message is about the instance that it is sent to, unless a relative change starts from a value
of another model. -/
theorem doneFor_receive {message : Message} (h : P c.element message.model)
    (hv : message.isDelta = true → ∀ i src k, n.get? c.element .level = some i →
      P c.element (deltaOrigin i src k).model) :
    n.DoneFor Node.follow P (n.receive c message).1 := by
  unfold receive
  split
  · exact .refl n
  next i hi =>
    unfold process
    split
    next => exact doneFor_sendStatus h n _ _ _
    next =>
      refine doneFor_withParams fun p hp => doneFor_onSet ?_ n
      have hmodel : p.value.model = .onOff := model_of_setParams (fun _ => rfl) hp
      rwa [hmodel]
    next =>
      refine doneFor_withParams fun p hp => doneFor_onSet ?_ n
      have hmodel : p.value.model = .level := model_of_setParams (fun _ => rfl) hp
      rwa [hmodel]
    next =>
      refine doneFor_withParams fun p hp => doneFor_onSet ?_ n
      have hmodel : p.value.model = .lightness := model_of_setParams (fun _ => rfl) hp
      rwa [hmodel]
    next => exact doneFor_withParams fun _ _ => doneFor_store h n
    next => exact doneFor_withParams fun _ _ => doneFor_store h n
    next => exact doneFor_withParams fun p _ => doneFor_onDelta h (hv rfl i c.src p.tid hi) n
    next => exact doneFor_withParams fun _ _ => doneFor_onMove h n

end Message

/-! ## Scenes and settings -/

theorem doneFor_storeScene (h : ∀ m, P e m) (n : Node) (slot : Nat) :
    n.DoneFor follow P (n.storeScene e slot).1 := by
  rcases storeScene_cases n e slot with ⟨heq, -⟩ | ⟨models, heq⟩
  · rw [heq]
    exact .refl n
  · rw [heq]
    exact .trans (doneFor_foldl (fun _ m _ => .modify (h m) _) n)
      (doneFor_foldl (fun n m _ => doneFor_save (h m) n) _)

theorem doneFor_recallScene (h : ∀ m, P e m) (n : Node) (slot transition : Nat) :
    n.DoneFor Node.follow P (n.recallScene e slot transition).1 := by
  rcases recallScene_cases n e slot transition with ⟨heq, -⟩ | ⟨requests, he, heq⟩
  · rw [heq]
    exact .refl n
  · rw [heq]
    refine doneFor_foldl (fun n r hr => doneFor_carryOut ?_ n) n
    obtain rfl := he r hr
    exact h r.model

theorem doneFor_powerUp (h : ∀ e m, P e m) (n : Node) : n.DoneFor Node.follow P n.powerUp.1 :=
  doneFor_foldl (fun _ _ _ => .follow (h _ _) _) n

theorem doneFor_reportLightSetting (h : P e .lightness) (n : Node) (status : Status) :
    n.DoneFor follow P (n.reportLightSetting e status).1 :=
  doneFor_emit h n rfl rfl

theorem doneFor_setLightDefault (h : P e .lightness) (n : Node) (l : Lightness) :
    n.DoneFor follow P (n.setLightDefault e l).1 := by
  unfold setLightDefault
  split
  · exact .trans (.trans (.modify h _) (doneFor_save h _)) (doneFor_reportLightSetting h _ _)
  · exact doneFor_reportLightSetting h n _

theorem doneFor_setLightRange (h : P e .lightness) (n : Node) (lo hi : Lightness) :
    n.DoneFor Node.follow P (n.setLightRange e lo hi).1 := by
  rcases setLightRange_cases n e lo hi with
    ⟨status, -, heq⟩ | ⟨-, light, -, -, -, heq | ⟨l, heq⟩⟩
  · rw [heq]
    exact doneFor_reportLightSetting h n status
  · rw [heq]
    exact .trans (.trans (.modify h _) (doneFor_save h _)) (doneFor_reportLightSetting h _ _)
  · rw [heq]
    exact .trans (.modify h _) (doneFor_carryOut h _)

end MeshNode.Node
