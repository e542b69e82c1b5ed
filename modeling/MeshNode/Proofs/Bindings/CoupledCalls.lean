import MeshNode.Proofs.Bindings.Coupling

/-! # Coupled states stay in step

Whatever clients and the application ask for, however their changes overlap, wait or run step by
step: each time one of two coupled states shows another value the other follows at once, so that
they are in step again.
-/

namespace MeshNode.Node

variable {n n' n'' : Node} {e : UInt8} {m : Model} {i j : Instance} {f : Instance → Instance}
  {v w : Value} {t d : Nat} {s : Source} {c : Coupling} {strict : Prop}
  {motion : Option Motion}

/-- The second node is tuned, and asked strictly it is in step if the first is. -/
structure StaysInStep (c : Coupling) (strict : Prop) (n n' : Node) : Prop where
  tuned : n'.Tuned c strict
  inStep : strict → n.InStep c → n'.InStep c

theorem StaysInStep.refl (h : n.Tuned c strict) : n.StaysInStep c strict n := ⟨h, fun _ => id⟩

theorem StaysInStep.trans (h : n.StaysInStep c strict n') (h' : n'.StaysInStep c strict n'') :
    n.StaysInStep c strict n'' :=
  ⟨h'.tuned, fun hstrict hin => h'.inStep hstrict (h.inStep hstrict hin)⟩

section Alike

variable (ha : n.Alike n')
include ha

theorem HostsCoupling.alike (h : n.HostsCoupling c) : n'.HostsCoupling c where
  bindings := by
    rw [ha.bindings]
    exact h.bindings
  depth := ha.depth.trans h.depth
  maxBindDepth := by
    rw [ha.config]
    exact h.maxBindDepth
  typed e m i hi := h.typed e m i ((ha.get? e m).symm.trans hi)
  lamp := by
    rw [ha.get?]
    exact h.lamp
  mate := by
    rw [ha.get?]
    exact h.mate

theorem Tuning.alike (h : n.Tuning c strict e m) : n'.Tuning c strict e m where
  toHostsCoupling := h.toHostsCoupling.alike ha
  others e' m' i hx hi := h.others e' m' i hx ((ha.get? e' m').symm.trans hi)

theorem InStep.alike (h : n.InStep c) : n'.InStep c where
  bindings := by rw [ha.bindings, h.bindings]
  fits := by
    rw [Fits, present?, present?, ha.get?, ha.get?]
    exact h.fits

theorem Tuned.alike (h : n.Tuned c strict) : n.StaysInStep c strict n' where
  tuned := { h.toHostsCoupling.alike ha with
    ready := fun e m i hi => h.ready e m i ((ha.get? e m).symm.trans hi) }
  inStep _ hin := hin.alike ha

end Alike

theorem StaysInStep.alike (h : n.StaysInStep c strict n') (ha : n'.Alike n'') :
    n.StaysInStep c strict n'' :=
  h.trans (h.tuned.alike ha)

theorem StaysInStep.tells (h : n.StaysInStep c strict n') (ht : n'.Tells n'') :
    n.StaysInStep c strict n'' :=
  h.alike ht.alike

/-! ## Changes of state -/

/-- A value that is shown and passed on leaves the two states in step. -/
theorem Tuning.show_passOn (h : n.Tuning c strict e m) (hi : n.get? e m = some i) (hw : w.model = m)
    (hs : strict → s.triggersBindings = true) :
    ((n.display e m w s).passOn follow e m w s).Tuning c strict e m ∧
      ((n.display e m w s).passOn follow e m w s).get? e m = some (i.display w s n.now) ∧
      (strict → n.InStep c → ((n.display e m w s).passOn follow e m w s).InStep c) := by
  rw [passOn]
  split
  · obtain ⟨ht, hget, hin⟩ := h.show_follow hi hw s
    exact ⟨ht, hget, fun _ => hin⟩
  next hquiet =>
    have he : n.Edits (n.display e m w s) e m i (i.display w s n.now) :=
      (Edits.refl hi).modify fun i => i.display w s n.now
    have htyped := h.typed e m i hi
    refine ⟨?_, he.after, fun hstrict => absurd (hs hstrict) hquiet⟩
    exact h.edits he ⟨hw, htyped.target, htyped.stepping, htyped.motion⟩ (c.keeps_noting _ w)

theorem StaysInStep.of_edits (he : n.Edits n' e m i j) (hp : j.present = i.present)
    (h : n'.StaysInStep c strict n'') : n.StaysInStep c strict n'' :=
  ⟨h.tuned, fun hstrict hin => h.inStep hstrict (hin.edits he hp)⟩

theorem Tuning.settle (h : n.Tuning c strict e m) (hi : n.get? e m = some i) (hw : w.model = m)
    (hs : strict → s.triggersBindings = true) (hedge : i.edgeResolved = true → i.present = w) :
    n.StaysInStep c strict (n.settle follow e m w s) := by
  rw [settle_eq hi]
  refine StaysInStep.tells ?_ (tells_report _ e m)
  split
  next hresolved =>
    -- The bindings followed at the start of the change, and the value is shown already.
    have he := (Edits.refl hi).finished w s
    have ht := h.edits he (i.typed_cleared hw s n.now) (c.keeps_noting _ w)
    exact ⟨ht.tuned he.after (i.isReady_cleared strict w s n.now),
      fun _ hin => hin.edits he (hedge hresolved).symm⟩
  next =>
    have he := (Edits.refl hi).modify (·.cleared w)
    have hcleared : (i.cleared w).Typed m := by
      have htyped := h.typed e m i hi
      exact ⟨htyped.present, hw, by simp [Instance.cleared, Stepping.none, Stepping.isActive],
        by simp [Instance.cleared]⟩
    obtain ⟨ht, hget, hin⟩ := (h.edits he hcleared id).show_passOn he.after hw hs
    exact .of_edits he rfl ⟨ht.tuned hget (i.isReady_cleared strict w s _), hin⟩

/-- A value that is not to be waited for belongs to a change in one go. -/
theorem still_of_isImmediate (h : i.Typed m) (hw : w.model = m)
    (himm : w.isImmediate = true) : i.stepping.isActive = false ∧ i.motion = none := by
  have hne (hm : m = .level ∨ m = .lightness) : False := by
    rw [Value.not_isImmediate_of_model (hw ▸ hm)] at himm
    cases himm
  constructor
  · cases hstep : i.stepping.isActive with
    | false => rfl
    | true => exact (hne (h.stepping hstep)).elim
  · cases hmotion : i.motion with
    | none => rfl
    | some k => exact (hne (.inl (h.motion (by rw [hmotion]; rfl)))).elim

theorem Tuning.embark (h : n.Tuning c strict e m) (hi : n.get? e m = some i) (hw : w.model = m)
    (hs : strict → s.triggersBindings = true) (hr : i.IsReady strict) (htarget : i.target = w)
    {b : Bool} : n.StaysInStep c strict (n.embark follow e m w t s b) := by
  have htyped := h.typed e m i hi
  have harm (k : Nat) := alike_arm n (transitionTimer e m) k
  rw [Node.embark]
  refine StaysInStep.tells ?_ (tells_announce _ e m)
  split
  next himm =>
    generalize (if b then n.config.stepInterval.toNat else t) = k
    obtain ⟨hstepping, hmotion⟩ := still_of_isImmediate htyped hw himm
    have hstart := (h.alike (harm k)).show_passOn (((harm k).get? e m).trans hi) hw hs
    rw [passOn] at hstart
    dsimp only
    split
    next htriggers =>
      rw [if_pos htriggers] at hstart
      obtain ⟨ht, hget, hin⟩ := hstart
      have he := (Edits.refl hget).modify fun i => { i with edgeResolved := true }
      have ht' := ht.edits he ⟨hw, htyped.target, htyped.stepping, htyped.motion⟩ id
      refine ⟨ht'.tuned he.after ⟨hr.heard, fun _ => ⟨htarget.symm, hstepping, hmotion⟩⟩, ?_⟩
      exact fun hstrict hstep => (hin hstrict (hstep.alike (harm k))).edits he rfl
    next htriggers =>
      rw [if_neg htriggers] at hstart
      obtain ⟨ht, hget, hin⟩ := hstart
      exact ⟨ht.tuned hget ⟨hr.heard, fun _ => ⟨htarget.symm, hstepping, hmotion⟩⟩,
        fun hstrict hstep => hin hstrict (hstep.alike (harm k))⟩
  next => exact (h.tuned hi hr).alike (harm _)

theorem Tuning.program (h : n.Tuning c strict e m) (hi : n.get? e m = some i) (hw : w.model = m)
    (hs : strict → s.triggersBindings = true)
    (hedge : i.edgeResolved = true →
      i.present = w ∧ i.stepping.isActive = false ∧ i.motion = none) :
    n.StaysInStep c strict (n.program follow e m w t d s) := by
  have he := (Edits.refl hi).modify fun i =>
    { i with remaining := t, delay := d, source := s, target := w }
  have htyped := h.typed e m i hi
  have hset := h.edits he ⟨htyped.present, hw, htyped.stepping, htyped.motion⟩ id
  have hready : Instance.IsReady strict
      { i with remaining := t, delay := d, source := s, target := w } :=
    ⟨fun hstrict _ => hs hstrict, hedge⟩
  simp only [Node.program, hi]
  refine .of_edits he rfl ?_
  split
  · exact StaysInStep.tells ((hset.tuned he.after hready).alike (alike_arm _ _ _))
      (tells_announce _ e m)
  · split
    · exact hset.embark he.after hw hs hready rfl
    · have hcancel := alike_cancel (n.modify e m fun i =>
        { i with remaining := t, delay := d, source := s, target := w }) (transitionTimer e m)
      have hrun := (hset.alike hcancel).settle ((hcancel.get? e m).trans he.after) hw hs
        fun hr => (hedge hr).1
      exact ⟨hrun.tuned, fun hstrict hin => hrun.inStep hstrict (hin.alike hcancel)⟩

theorem Tuned.start (h : n.Tuned c strict) (hv : v.model = m)
    (hs : strict → s.triggersBindings = true) (hm : motion.isSome → m = .level) :
    n.StaysInStep c strict (n.start follow e m v t d s motion) := by
  rw [Node.start]
  split
  · exact .refl h
  next i hi =>
    have hmodel : (confine i v).model = m := by rw [model_confine, hv]
    have htyped := h.typed e m i hi
    dsimp only
    generalize (if m.isTransitional then t else 0) = t'
    generalize (if m.isTransitional then d else 0) = d'
    generalize hplan : (if motion.isSome then Stepping.none
      else .plan i.present (confine i v) t' n.config.stepInterval.toNat) = stepping
    have hstepping : stepping.isActive → m = .level ∨ m = .lightness := by
      rw [← hplan]
      split
      · simp [Stepping.none, Stepping.isActive]
      · intro hactive
        rw [← hmodel]
        exact Value.model_of_position? (Stepping.position?_of_plan hactive)
    have he := ((Edits.refl hi).modify fun i => { i with
      motion := motion, stepping := stepping, edgeResolved := false }).alike
        (alike_note _ (.requested ⟨e, m, confine i v, t', d', s⟩ motion))
    have hset := (h.tuning e m).edits he ⟨htyped.present, htyped.target, hstepping, hm⟩ id
    exact .of_edits he rfl (hset.program he.after hmodel hs fun hr => by cases hr)

theorem Tuned.carryOut (h : n.Tuned c strict) (r : Request)
    (hs : strict → r.source.triggersBindings = true) :
    n.StaysInStep c strict (n.carryOut follow r) := by
  rw [Node.carryOut]
  split
  next hcheck => exact h.start (model_of_check hcheck rfl) hs (by simp)
  next => exact h.alike (tells_emit n _).alike

/-! ## Progress -/

theorem Tuned.stepOn (h : n.Tuned c strict) (hi : n.get? e m = some i)
    (hs : strict → i.source.triggersBindings = true) (hstep : i.stepping.isActive = true) :
    n.StaysInStep c strict (n.stepOn e m i) := by
  have htyped := h.typed e m i hi
  have hedge : ¬ i.edgeResolved = true := fun hr => by
    have := ((h.ready e m i hi).resolved hr).2.1
    rw [hstep] at this
    cases this
  have he := (Edits.refl hi).modify fun i => { i with stepping := i.stepping.next }
  have hset := (h.tuning e m).edits he ⟨htyped.present, htyped.target,
    fun ha => htyped.stepping (Stepping.isActive_of_next ha), htyped.motion⟩ id
  have hmodel : (i.present.shift i.stepping.increment).model = m := by
    rw [Value.model_shift, htyped.present]
  -- Whatever followed the interim value is the other end: this instance is as it was before.
  obtain ⟨ht, hget, hin⟩ := hset.show_passOn he.after hmodel hs
  rw [Node.stepOn]
  refine .of_edits he rfl ?_
  split
  · have hrun := ht.settle hget htyped.target hs fun hr => absurd hr hedge
    exact ⟨hrun.tuned, fun hstrict h => hrun.inStep hstrict (hin hstrict h)⟩
  · have hrun := ht.program (t := i.remaining - n.config.stepInterval.toNat) (d := 0) hget
      htyped.target hs fun hr => absurd hr hedge
    exact StaysInStep.tells ⟨hrun.tuned, fun hstrict h => hrun.inStep hstrict (hin hstrict h)⟩
      (tells_publish _ e m)

theorem Tuned.moveOn (h : n.Tuned c strict) (hi : n.get? e m = some i)
    (hs : strict → i.source.triggersBindings = true) {k : Motion} (hmotion : i.motion = some k) :
    n.StaysInStep c strict (n.moveOn e m i k) := by
  have htyped := h.typed e m i hi
  have hedge : ¬ i.edgeResolved = true := fun hr => by
    have := ((h.ready e m i hi).resolved hr).2.2
    rw [hmotion] at this
    cases this
  have hmodel : (i.present.shift k.step).model = m := by rw [Value.model_shift, htyped.present]
  rw [Node.moveOn]
  split
  · exact (h.tuning e m).settle hi htyped.target hs fun hr => absurd hr hedge
  · obtain ⟨ht, hget, hin⟩ := (h.tuning e m).show_passOn hi hmodel hs
    have hrun := ht.program (t := k.interval) (d := 0) hget htyped.target hs
      fun hr => absurd hr hedge
    exact StaysInStep.tells ⟨hrun.tuned, fun hstrict h => hrun.inStep hstrict (hin hstrict h)⟩
      (tells_publish _ e m)

theorem Tuned.endDelay (h : n.Tuned c strict) (hi : n.get? e m = some i)
    (hs : strict → i.source.triggersBindings = true) :
    n.StaysInStep c strict (n.endDelay e m i) := by
  have htyped := h.typed e m i hi
  have he := (Edits.refl hi).modify fun i => { i with delay := 0, pendingReply := none }
  have hset := (h.tuning e m).edits he
    ⟨htyped.present, htyped.target, htyped.stepping, htyped.motion⟩ id
  have hrun : n.StaysInStep c strict _ := .of_edits he rfl
    (hset.program (t := i.remaining) (d := 0) he.after htyped.target hs (h.ready e m i hi).resolved)
  rw [Node.endDelay]
  split
  · exact hrun.tells (tells_sendStatus _ e m _ _ _)
  · exact hrun

theorem Tuned.halt (h : n.Tuned c strict) (e : UInt8) (m : Model) :
    n.StaysInStep c strict (n.halt e m) := by
  have hstill := h.alike (alike_cancel n (transitionTimer e m))
  rw [Node.halt]
  refine hstill.trans ?_
  split
  · exact .refl hstill.tuned
  next i hi =>
    have hready := hstill.tuned.ready e m i hi
    have htyped := hstill.tuned.typed e m i hi
    split
    · have he := (Edits.refl hi).modify fun i => { i with motion := none }
      have hset := (hstill.tuned.tuning e m).edits he
        ⟨htyped.present, htyped.target, htyped.stepping, by simp⟩ id
      refine ⟨hset.tuned he.after ⟨hready.heard, fun hr => ?_⟩, fun _ hin => hin.edits he rfl⟩
      exact ⟨(hready.resolved hr).1, (hready.resolved hr).2.1, rfl⟩
    next hbusy =>
      -- A halted change settles on the value that is shown, with nothing left to follow.
      have he := (Edits.refl hi).modify fun i => { i with edgeResolved := true }
      have hset := (hstill.tuned.tuning e m).edits he
        ⟨htyped.present, htyped.target, htyped.stepping, htyped.motion⟩ id
      have hs (hstrict : strict) : i.source.triggersBindings = true := by
        refine hready.heard hstrict ?_
        by_contra hidle
        refine hbusy (decide_eq_true (Instance.phase_eq_idle_iff.mpr ?_))
        rwa [or_comm]
      exact .of_edits he rfl (hset.settle he.after htyped.present hs fun _ => rfl)

theorem Tuned.onTransition (h : n.Tuned c strict) (e : UInt8) (m : Model) :
    n.StaysInStep c strict (n.onTransition e m) := by
  rw [Node.onTransition]
  split
  · exact .refl h
  next i hi =>
    have hready := h.ready e m i hi
    split
    next hd => exact h.endDelay hi fun hstrict => hready.heard hstrict (.inr hd)
    next =>
      split
      next hr =>
        have hs (hstrict : strict) := hready.heard hstrict (.inl hr)
        split
        next k hmotion => exact h.moveOn hi hs hmotion
        next =>
          split
          next hstep => exact h.stepOn hi hs hstep
          next =>
            exact (h.tuning e m).settle hi (h.typed e m i hi).target hs
              fun hr => (hready.resolved hr).1
      next => exact .refl h

/-! ## Messages -/

theorem Tuned.books (h : n.Tuned c strict) (e : UInt8) (m : Model)
    (hc : ∀ i, (f i).course = i.course)
    (hl : ∀ i, n.get? e m = some i → c.keeps i.light → c.keeps (f i).light) :
    n.StaysInStep c strict (n.modify e m f) := by
  cases hi : n.get? e m with
  | none =>
    rw [modify_of_absent hi]
    exact .refl h
  | some i =>
    have he := (Edits.refl hi).modify f
    have hready := h.ready e m i hi
    obtain ⟨hpresent, htarget, hremaining, hdelay, hsource, hstepping, hmotion, hedge⟩ :=
      Course.mk.injEq .. ▸ hc i
    have hset := (h.tuning e m).edits he ((h.typed e m i hi).congr (hc i)) (hl i hi)
    refine ⟨hset.tuned he.after ⟨?_, ?_⟩, fun _ hin => hin.edits he hpresent⟩
    · rw [hremaining, hdelay, hsource]
      exact hready.heard
    · rw [hedge, hpresent, htarget, hstepping, hmotion]
      exact hready.resolved

theorem Tuned.remember (h : n.Tuned c strict) (g : Envelope) (m : Model) (k : UInt8) (ack : Bool) :
    n.StaysInStep c strict (n.remember g m k ack) := by
  refine StaysInStep.alike (h.books g.element m ?_ ?_) (alike_arm _ _ _)
  · exact fun _ => rfl
  · exact fun _ _ => id

theorem StaysInStep.answerUnlessDelayed (h : n.StaysInStep c strict n') (g : Envelope) (m : Model) :
    n.StaysInStep c strict (n'.answerUnlessDelayed g m) := by
  rw [Node.answerUnlessDelayed]
  split
  · exact h
  · split
    · exact h
    · split
      · refine h.trans (StaysInStep.tells ?_ (tells_sendStatus ..))
        exact h.tuned.books g.element m (fun _ => rfl) fun _ _ => id
      · exact h

theorem Tuned.startForClient (h : n.Tuned c strict) (hm : motion.isSome → v.model = .level) :
    n.StaysInStep c strict (n.startForClient e v t d motion) :=
  h.start rfl (fun _ => rfl) hm

theorem Tuned.onSet (h : n.Tuned c strict) (g : Envelope) (i : Instance) (p : Params Value)
    (ack : Bool) : n.StaysInStep c strict (n.onSet g i p ack).1 := by
  rw [Node.onSet]
  split
  · exact .refl h
  · have hremember := h.remember g p.value.model p.tid ack
    refine StaysInStep.answerUnlessDelayed ?_ g p.value.model
    exact hremember.trans (hremember.tuned.startForClient fun hsome => by cases hsome)

theorem Tuned.onDelta (h : n.Tuned c strict) (g : Envelope) (i : Instance) (p : Params Int32)
    (ack : Bool) : n.StaysInStep c strict (n.onDelta g i p ack).1 := by
  rw [Node.onDelta]
  have horigin : n.StaysInStep c strict (n.modify g.element .level fun j =>
      { j with deltaOrigin := some (deltaOrigin i g.src p.tid) }) :=
    h.books g.element .level (fun _ => rfl) fun _ _ => id
  have hremember := horigin.trans (horigin.tuned.remember g .level p.tid ack)
  refine StaysInStep.answerUnlessDelayed ?_ g .level
  exact hremember.trans (hremember.tuned.startForClient fun hsome => by cases hsome)

theorem Tuned.onMove (h : n.Tuned c strict) (g : Envelope) (i : Instance) (p : Params Level)
    (ack : Bool) : n.StaysInStep c strict (n.onMove g i p ack).1 := by
  rw [Node.onMove]
  split
  · exact .refl h
  · have hremember := h.remember g .level p.tid ack
    refine StaysInStep.answerUnlessDelayed (hremember.trans ?_) g .level
    split
    · exact hremember.tuned.halt g.element .level
    · split
      · exact hremember.tuned.startForClient fun _ => rfl
      · exact .refl hremember.tuned

theorem Tuned.store (h : n.Tuned c strict) (g : Envelope) (hv : v.model.isTransitional = false)
    (ack : Bool) : n.StaysInStep c strict (n.store g v ack).1 := by
  have hset : n.StaysInStep c strict (n.modify g.element v.model fun i =>
      { i.display v .client n.now with target := v, source := .client }) := by
    cases hi : n.get? g.element v.model with
    | none =>
      rw [modify_of_absent hi]
      exact .refl h
    | some i =>
      have he := (Edits.refl hi).modify fun i =>
        { i.display v .client n.now with target := v, source := .client }
      have hready := h.ready _ _ i hi
      have htyped := h.typed _ _ i hi
      have ht := (h.tuning _ _).edits he ⟨rfl, rfl, htyped.stepping, htyped.motion⟩
        (c.keeps_noting _ v)
      refine ⟨ht.tuned he.after ⟨fun _ _ => rfl, fun hr => ⟨rfl, (hready.resolved hr).2⟩⟩, ?_⟩
      exact fun _ hin => hin.edits_of_not_isEnd he (c.not_isEnd hv)
  have hstored : n.StaysInStep c strict (n.stored g.element v) :=
    (hset.tells (tells_save ..)).tells (tells_emit ..)
  rw [store_eq]
  dsimp only
  split
  · exact hstored.tells (tells_sendStatus ..)
  · exact hstored

theorem Tuned.withParams (h : n.Tuned c strict) {α : Type} {p : Except (List Violation) α}
    {act : α → Node × Outcome} (hact : ∀ a, p = .ok a → n.StaysInStep c strict (act a).1) :
    n.StaysInStep c strict (n.withParams p act).1 := by
  rw [withParams.eq_def]
  split
  next a => exact hact a rfl
  next => exact .refl h

theorem Tuned.receive (h : n.Tuned c strict) (g : Envelope) (message : Message) :
    n.StaysInStep c strict (n.receive g message).1 := by
  rw [Node.receive]
  split
  · exact .refl h
  next i hi =>
    rw [process.eq_def]
    split
    · exact h.alike (tells_sendStatus ..).alike
    · exact h.withParams fun p _ => h.onSet g i p _
    · exact h.withParams fun p _ => h.onSet g i p _
    · exact h.withParams fun p _ => h.onSet g i p _
    · exact h.withParams fun b _ => h.store g rfl _
    · exact h.withParams fun t _ => h.store g rfl _
    · exact h.withParams fun p _ => h.onDelta g i p _
    · exact h.withParams fun p _ => h.onMove g i p _

end MeshNode.Node
