import MeshNode.Proofs.Node.Soundness

/-! # What holds of every change of an instance

Whatever goes on in an instance is put together from a few small things: it is modified, one of its
two timers is armed or disarmed, something is noted, and bindings follow its state. A relation that
holds of each of these holds of the whole.
-/

namespace MeshNode.Node

/-- The relation holds between a node and what becomes of it by each of the small things that are
done for an instance. An instance goes on to hold values of its model, and its timers are armed for
later only. -/
structure ClosedUnderChanges (R : Node → Node → Prop) (e : UInt8) (m : Model) : Prop where
  refl : ∀ n, R n n
  trans : ∀ {n n₁ n'}, R n n₁ → R n₁ n' → R n n'
  note : ∀ (n : Node) x, R n (n.note x)
  modify : ∀ (n : Node) (f : Instance → Instance), (∀ i, i.Typed m → (f i).Typed m) →
    R n (n.modify e m f)
  arm : ∀ (n : Node) purpose after,
    (0 < n.config.stepInterval.toNat → 0 < n.config.dedupTimeout.toNat → 0 < after) →
      R n (n.arm ⟨e, m, purpose⟩ after)
  cancel : ∀ (n : Node) purpose, R n (n.cancel ⟨e, m, purpose⟩)

variable {R : Node → Node → Prop} {e : UInt8} {m : Model} {i : Instance} {v w : Value} {t d : Nat}
  {s : Source} {motion : Option Motion} {r : Request}

namespace ClosedUnderChanges

section Instance

variable (h : ClosedUnderChanges R e m)
include h

theorem tells {n n' : Node} (ht : n.Tells n') : R n n' := by
  obtain ⟨es, rfl, -⟩ := ht
  induction es with
  | nil => exact h.refl n
  | cons x es ih => exact h.trans ih (h.note _ x)

/-! ## Changes of state -/

section Follow

variable {follow : Follow}

theorem display (hw : w.model = m) (n : Node) : R n (n.display e m w s) :=
  h.modify n _ fun _ hi => ⟨hw, hi.target, hi.stepping, hi.motion⟩

variable (hfollow : ∀ n v, R n (follow n e m v))
include hfollow

theorem passOn (n : Node) : R n (n.passOn follow e m w s) := by
  unfold Node.passOn
  split
  · exact hfollow n w
  · exact h.refl n

theorem settle (hw : w.model = m) (n : Node) : R n (n.settle follow e m w s) := by
  unfold Node.settle
  split
  · exact h.refl n
  · refine h.trans ?_ (h.tells (tells_report _ e m))
    have hset := h.modify n (fun i =>
      { i with
        remaining := 0, delay := 0, stepping := .none, motion := none, target := w,
        edgeResolved := false }) fun _ hi =>
          ⟨hi.present, hw, by simp [Stepping.none, Stepping.isActive], by simp⟩
    have hshown := h.trans hset (h.display (s := s) hw _)
    split
    · exact hshown
    · exact h.trans hshown (h.passOn hfollow _)

theorem embark (hw : w.model = m) (ht : 0 < t) (stepped : Bool) (n : Node) :
    R n (n.embark follow e m w t s stepped) := by
  unfold Node.embark
  refine h.trans ?_ (h.tells (tells_announce _ e m))
  generalize hfirst : (if stepped then n.config.stepInterval.toNat else t) = first
  have harm : R n (n.arm (transitionTimer e m) first) := by
    apply h.arm
    intro hstep _
    rw [← hfirst]
    split <;> assumption
  split
  · have hshown := h.trans harm (h.display (s := s) hw _)
    split
    · refine h.trans (h.trans hshown (hfollow _ w)) (h.modify _ _ ?_)
      exact fun _ hi => ⟨hi.present, hi.target, hi.stepping, hi.motion⟩
    · exact hshown
  · exact harm

theorem program (hw : w.model = m) (n : Node) : R n (n.program follow e m w t d s) := by
  unfold Node.program
  split
  · exact h.refl n
  · have hset := h.modify n (fun i =>
      { i with remaining := t, delay := d, source := s, target := w }) fun _ hi =>
        ⟨hi.present, hw, hi.stepping, hi.motion⟩
    apply h.trans hset
    split
    · refine h.trans (h.arm _ .transition _ fun _ _ => ?_) (h.tells (tells_announce _ e m))
      simp only [TransitionTime.delayMs]
      omega
    · split
      · exact h.embark hfollow hw ‹_› _ _
      · exact h.trans (h.cancel _ .transition) (h.settle hfollow hw _)

theorem start (hv : v.model = m) (hm : motion.isSome → m = .level) (n : Node) :
    R n (n.start follow e m v t d s motion) := by
  unfold Node.start
  split
  · exact h.refl n
  next i _ =>
    have hw : (confine i v).model = m := by rw [model_confine, hv]
    refine h.trans (h.trans ?_ (h.note _ _)) (h.program hfollow hw _)
    refine h.modify n _ fun j hj => ⟨hj.present, hj.target, fun ha => ?_, hm⟩
    dsimp only at ha
    split at ha
    · simp [Stepping.none, Stepping.isActive] at ha
    · rw [← hw]
      exact Value.model_of_position? (Stepping.position?_of_plan ha)

end Follow

/-! ## Progress -/

section Progress

variable (hfollow : ∀ n v, R n (Node.follow n e m v))
include hfollow

theorem visit (hw : w.model = m) (n : Node) : R n (n.visit e m w s) :=
  h.trans (h.display hw n) (h.passOn hfollow _)

theorem halt {n : Node} (hn : n.Typed) : R n (n.halt e m) := by
  unfold Node.halt
  refine h.trans (h.cancel n .transition) ?_
  dsimp only
  split
  · exact h.refl _
  next i hi =>
    split
    · exact h.modify _ _ fun _ hj => ⟨hj.present, hj.target, hj.stepping, by simp⟩
    · refine h.trans (h.modify _ _ ?_) (h.settle hfollow (hn e m i hi).present _)
      exact fun _ hj => ⟨hj.present, hj.target, hj.stepping, hj.motion⟩

variable (hi : i.Typed m)
include hi

theorem stepOn (n : Node) : R n (n.stepOn e m i) := by
  unfold Node.stepOn
  have hstep := h.modify n (fun i => { i with stepping := i.stepping.next }) fun _ hj =>
    ⟨hj.present, hj.target, fun ha => hj.stepping (Stepping.isActive_of_next ha), hj.motion⟩
  have hmodel : (i.present.shift i.stepping.increment).model = m := by
    rw [Value.model_shift, hi.present]
  have hshown := h.trans hstep (h.visit hfollow (s := i.source) hmodel _)
  dsimp only
  split
  · exact h.trans hshown (h.settle hfollow hi.target _)
  · exact h.trans (h.trans hshown (h.program hfollow hi.target _)) (h.tells (tells_publish _ e m))

theorem moveOn (k : Motion) (n : Node) : R n (n.moveOn e m i k) := by
  unfold Node.moveOn
  dsimp only
  split
  · exact h.settle hfollow hi.target n
  · have hmodel : (i.present.shift k.step).model = m := by rw [Value.model_shift, hi.present]
    have hshown := h.visit hfollow (s := i.source) hmodel n
    exact h.trans (h.trans hshown (h.program hfollow hi.target _)) (h.tells (tells_publish _ e m))

theorem endDelay (n : Node) : R n (n.endDelay e m i) := by
  unfold Node.endDelay
  have hset := h.modify n (fun i => { i with delay := 0, pendingReply := none }) fun _ hj =>
    ⟨hj.present, hj.target, hj.stepping, hj.motion⟩
  have hrun := h.trans hset
    (h.program hfollow (t := i.remaining) (d := 0) (s := i.source) hi.target _)
  dsimp only
  split
  · exact h.trans hrun (h.tells (tells_sendStatus _ e m _ _ _))
  · exact hrun

omit hi in
theorem onTransition {n : Node} (hn : n.Typed) : R n (n.onTransition e m) := by
  unfold Node.onTransition
  split
  · exact h.refl n
  next i hi =>
    have ht := hn e m i hi
    split
    · exact h.endDelay hfollow ht n
    · split
      · split
        · exact h.moveOn hfollow ht _ n
        · split
          · exact h.stepOn hfollow ht n
          · exact h.settle hfollow ht.target n
      · exact h.refl n

end Progress

end Instance

theorem onTimer {n : Node} {timer : Timer} (h : ClosedUnderChanges R timer.element timer.model)
    (hfollow : ∀ n v, R n (Node.follow n timer.element timer.model v)) (hn : n.Typed) :
    R n (n.onTimer timer) := by
  unfold Node.onTimer
  split
  · exact h.onTransition hfollow hn
  · exact h.modify n _ fun _ hi => ⟨hi.present, hi.target, hi.stepping, hi.motion⟩

theorem carryOut {follow : Follow} (h : ClosedUnderChanges R r.element r.model)
    (hfollow : ∀ n v, R n (follow n r.element r.model v)) (n : Node) :
    R n (n.carryOut follow r) := by
  unfold Node.carryOut
  split
  next hc => exact h.start hfollow (model_of_check hc rfl) (by simp) n
  next => exact h.tells (tells_emit n _)

/-! ## Messages -/

section Message

variable {c : Envelope} {ack : Bool} {n : Node}

theorem remember (h : ClosedUnderChanges R c.element m) (k : UInt8) (ack : Bool) (n : Node) :
    R n (n.remember c m k ack) := by
  refine h.trans (h.modify n _ ?_) (h.arm _ .transaction _ fun _ hp => hp)
  exact fun _ hi => ⟨hi.present, hi.target, hi.stepping, hi.motion⟩

theorem answerUnlessDelayed (h : ClosedUnderChanges R c.element m) (n : Node) :
    R n (n.answerUnlessDelayed c m) := by
  unfold Node.answerUnlessDelayed
  split
  · exact h.refl n
  · split
    · exact h.refl n
    · split
      · refine h.trans (h.modify n _ ?_) (h.tells (tells_sendStatus _ _ _ _ _ _))
        exact fun _ hi => ⟨hi.present, hi.target, hi.stepping, hi.motion⟩
      · exact h.refl n

theorem startForClient (h : ClosedUnderChanges R e m) (hfollow : ∀ n v, R n (Node.follow n e m v))
    (hv : v.model = m) (hm : motion.isSome → m = .level) (n : Node) :
    R n (n.startForClient e v t d motion) := by
  subst hv
  exact h.start hfollow rfl hm n

theorem onSet {p : Params Value} (h : ClosedUnderChanges R c.element m)
    (hfollow : ∀ n v, R n (Node.follow n c.element m v)) (hp : p.value.model = m) (n : Node) :
    R n (n.onSet c i p ack).1 := by
  subst hp
  unfold Node.onSet
  split
  · exact h.refl n
  · refine h.trans (h.trans (h.remember p.tid ack n) ?_) (h.answerUnlessDelayed _)
    exact h.startForClient hfollow rfl (by simp) _

theorem onDelta {p : Params Int32} (h : ClosedUnderChanges R c.element .level)
    (hfollow : ∀ n v, R n (Node.follow n c.element .level v))
    (hp : (deltaOrigin i c.src p.tid).model = .level) (n : Node) :
    R n (n.onDelta c i p ack).1 := by
  unfold Node.onDelta
  rw [← Value.model_shift _ p.value.toInt] at hp
  have hset := h.modify n (fun j => { j with deltaOrigin := some (deltaOrigin i c.src p.tid) })
    fun _ hj => ⟨hj.present, hj.target, hj.stepping, hj.motion⟩
  have hremember := h.trans hset (h.remember p.tid ack _)
  refine h.trans (h.trans hremember ?_) (h.answerUnlessDelayed _)
  exact h.startForClient hfollow hp (by simp) _

theorem onMove {p : Params Level} (h : ClosedUnderChanges R c.element .level)
    (hfollow : ∀ n v, R n (Node.follow n c.element .level v)) (hn : n.Typed) :
    R n (n.onMove c i p ack).1 := by
  unfold Node.onMove
  split
  · exact h.refl n
  · refine h.trans (h.trans (h.remember p.tid ack n) ?_) (h.answerUnlessDelayed _)
    split
    · exact h.halt hfollow (typed_remember hn)
    · split
      · exact h.startForClient hfollow rfl (fun _ => rfl) _
      · exact h.refl _

theorem store (h : ClosedUnderChanges R c.element m) (hv : v.model = m) (n : Node) :
    R n (n.store c v ack).1 := by
  subst hv
  have hstored : R n (n.stored c.element v) := by
    refine h.trans (h.trans (h.modify n _ ?_) (h.tells (tells_save ..))) (h.tells (tells_emit ..))
    exact fun _ hi => ⟨rfl, rfl, hi.stepping, hi.motion⟩
  rw [store_eq]
  dsimp only
  split
  · exact h.trans hstored (h.tells (tells_sendStatus _ _ _ _ _ _))
  · exact hstored

theorem withParams {α : Type} {p : Except (List Violation) α} {act : α → Node × Outcome}
    (h : ClosedUnderChanges R e m) (hact : ∀ a, p = .ok a → R n (act a).1) :
    R n (n.withParams p act).1 := by
  unfold Node.withParams
  split
  next a => exact hact a rfl
  next => exact h.refl n

/-- Whatever a message makes of the instance that it is sent to. A relative change has to start from
a value of the model. -/
theorem receive {message : Message} (h : ClosedUnderChanges R c.element message.model)
    (hfollow : ∀ n v, R n (Node.follow n c.element message.model v)) (hn : n.Typed)
    (hd : ∀ i src tid, n.get? c.element .level = some i → (deltaOrigin i src tid).model = .level) :
    R n (n.receive c message).1 := by
  unfold Node.receive
  split
  · exact h.refl n
  next i hi =>
    unfold process
    split
    next => exact h.tells (tells_sendStatus n _ _ _ _ _)
    next => exact h.withParams fun p hp =>
      h.onSet hfollow (model_of_setParams (fun _ => rfl) hp) n
    next => exact h.withParams fun p hp =>
      h.onSet hfollow (model_of_setParams (fun _ => rfl) hp) n
    next => exact h.withParams fun p hp =>
      h.onSet hfollow (model_of_setParams (fun _ => rfl) hp) n
    next => exact h.withParams fun p _ => h.store rfl n
    next => exact h.withParams fun p _ => h.store rfl n
    next => exact h.withParams fun p _ => h.onDelta hfollow (hd i c.src p.tid hi) n
    next => exact h.withParams fun p _ => h.onMove hfollow hn

end Message

/-! ## Following bindings -/

/-- What holds of every change of an instance holds while bindings are followed. -/
theorem closedUnderBindings (h : ∀ e m, ClosedUnderChanges R e m)
    (hd : ∀ (n : Node) depth, R n { n with depth }) : ClosedUnderBindings R where
  refl := (h 0 .level).refl
  trans := (h 0 .level).trans
  note n _ _ _ := (h 0 .level).note n _
  depth := hd
  carryOut hfollow n r := (h r.element r.model).carryOut (fun n v => hfollow n _ _ v) n

end ClosedUnderChanges

end MeshNode.Node
