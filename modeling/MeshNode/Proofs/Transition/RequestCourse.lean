import MeshNode.Proofs.Transition.RequestsHeeded

/-! # What a request makes of a node

To settle, to program and to start a change each put one instance on a course that is known at
once. What its bindings do then is heeded, and heeds every request in turn.
-/

namespace MeshNode.Node

variable {n n' n₁ : Node} {e : UInt8} {m : Model} {i : Instance} {follow : Follow}
  {v w : Value} {t d : Nat} {s : Source} {d? : Option Nat}

theorem watch_of_get? (hi : n.get? e m = some i) :
    n.watch e m = (some i.course, n.timers.deadline? (transitionTimer e m)) := by
  rw [watch, hi]
  rfl

theorem onCourse_of_get? (hi : n.get? e m = some i) :
    n.OnCourse e m i.course (n.timers.deadline? (transitionTimer e m)) :=
  onCourse_of_watch (watch_of_get? hi)

/-- The request that an instance takes up when a change is asked of it. -/
def admitted (i : Instance) (r : Request) : Request :=
  { r with
    value := confine i r.value
    transition := if r.model.isTransitional then r.transition else 0
    delay := if r.model.isTransitional then r.delay else 0 }

/-- The course of an instance when it takes up a request. -/
def admittedCourse (n : Node) (i : Instance) (r : Request) (motion : Option Motion) : Course :=
  { i.course with
    motion := motion
    stepping :=
      if motion.isSome then .none else (n.trip (admitted i r) i.present).stepping
    edgeResolved := false }

/-- A relation that can hold between a node and what it has become when all is said and done. -/
structure IsAftermath (m : Model) (R : Node → Node → Prop) : Prop where
  refl : ∀ n, R n n
  tells : ∀ {n n₁ n₂}, R n n₁ → n₁.Tells n₂ → R n n₂
  /-- Setting the mark that an edge was resolved on both sides makes no difference. -/
  mark : ∀ {n n'}, R n n' → ∀ e, R (n.mark e m) (n'.mark e m)

theorem isAftermath_keepsToRequests : IsAftermath m KeepsToRequests where
  refl := KeepsToRequests.refl
  tells := KeepsToRequests.tells
  mark h e := h.mark e m

theorem isAftermath_tells : IsAftermath m Tells where
  refl := Tells.refl
  tells := Tells.trans
  mark := by
    rintro n _ ⟨es, rfl, hes⟩ e
    exact ⟨es, rfl, hes⟩

section Writing

variable {R : Node → Node → Prop} (hR : IsAftermath m R)
include hR

theorem settle_writes
    (hfollow : i.edgeResolved = false → s.triggersBindings = true → ∀ n, R n (follow n e m w))
    (hi : n.get? e m = some i) :
    ∃ n₁, n.Writes n₁ e m [] (i.course.finish w) (n.timers.deadline? (transitionTimer e m)) ∧
      R n₁ (n.settle follow e m w s) := by
  simp only [settle, hi]
  have hset := (Writes.refl (onCourse_of_get? hi)).modify
    (f := fun i => { i with
      remaining := 0, delay := 0, stepping := .none, motion := none, target := w,
      edgeResolved := false })
    (fun j hj => congrArg (fun c : Course => { c with
      remaining := 0, delay := 0, stepping := .none, motion := none, target := w,
      edgeResolved := false }) hj)
    fun _ => rfl
  have hshown := hset.modify (f := fun i => i.display w s n.now)
    (fun j hj => congrArg (fun c : Course => { c with present := w }) hj)
    fun i => i.light.range_noting w
  refine ⟨_, hshown, hR.tells ?_ (tells_report _ e m)⟩
  split
  · exact hR.refl _
  next hedge =>
    unfold passOn
    split
    · exact hfollow (Bool.not_eq_true _ |>.mp hedge) ‹_› _
    · exact hR.refl _

theorem embark_writes {c : Course} {b : Bool}
    (hfollow : w.isImmediate = true → s.triggersBindings = true → ∀ n, R n (follow n e m w))
    (hw : n.OnCourse e m c d?) :
    ∃ n₁, n.Writes n₁ e m []
        (if w.isImmediate then
          { c with present := w, edgeResolved := c.edgeResolved || s.triggersBindings } else c)
        (some (n.now + if b then n.config.stepInterval.toNat else t)) ∧
      R n₁ (n.embark follow e m w t s b) := by
  rw [embark]
  dsimp only
  generalize (if b then n.config.stepInterval.toNat else t) = first
  have harm := (Writes.refl hw).arm first
  split
  next himm =>
    have hshown := harm.modify (f := fun i => i.display w s n.now)
      (fun j hj => congrArg (fun c : Course => { c with present := w }) hj)
      fun i => i.light.range_noting w
    split
    next htr =>
      have hmark := hshown.modify (f := fun i => { i with edgeResolved := true })
        (fun j hj => congrArg (fun c : Course => { c with edgeResolved := true }) hj) fun _ => rfl
      refine ⟨_, ?_, hR.tells (hR.mark (hfollow himm htr _) e) (tells_announce _ e m)⟩
      rw [htr, Bool.or_true]
      exact hmark
    next htr =>
      refine ⟨_, ?_, hR.tells (hR.refl _) (tells_announce _ e m)⟩
      rw [Bool.not_eq_true _ |>.mp htr, Bool.or_false]
      exact hshown
  next himm =>
    exact ⟨_, harm, hR.tells (hR.refl _) (tells_announce _ e m)⟩

theorem program_writes
    (hfollow : w.isImmediate = true ∨ t = 0 → s.triggersBindings = true →
      ∀ n, R n (follow n e m w))
    (hi : n.get? e m = some i) :
    ∃ n₁, n.Writes n₁ e m [] (i.course.enter w t d s)
        ((i.course.enterTime? n.config.stepInterval.toNat t d).map (n.now + ·)) ∧
      R n₁ (n.program follow e m w t d s) := by
  simp only [program, hi]
  have hset := (Writes.refl (onCourse_of_get? hi)).modify
    (f := fun i => { i with remaining := t, delay := d, source := s, target := w })
    (fun j hj => congrArg (fun c : Course => { c with
      remaining := t, delay := d, source := s, target := w }) hj)
    fun _ => rfl
  split
  next hd =>
    refine ⟨_, ?_, hR.tells (hR.refl _) (tells_announce _ e m)⟩
    simpa [Course.enter, Course.enterTime?, hd] using
      hset.arm (TransitionTime.delayMs d)
  next hd =>
    split
    next ht =>
      obtain ⟨n₁, hw, hh⟩ := embark_writes (w := w) (t := t) (s := s) (b := i.stepping.isActive)
        hR (fun himm => hfollow (Or.inl himm)) hset.onCourse
      refine ⟨n₁, ?_, hh⟩
      simp only [Course.enter, Course.enterTime?, if_neg hd, if_pos ht, Option.map_some]
      exact hset.trans hw
    next ht =>
      have hstop := hset.cancel
      obtain ⟨j, hj, hjc, hjd⟩ := watch_eq_some hstop.onCourse.watch_of_none
      obtain ⟨n₁, hw, hh⟩ := settle_writes (w := w) (s := s) hR
        (fun _ => hfollow (Or.inr (Nat.eq_zero_of_not_pos ht))) hj
      refine ⟨n₁, ?_, hh⟩
      rw [hjc, hjd] at hw
      simpa [Course.enter, Course.enterTime?, hd, ht] using hstop.trans hw

theorem start_writes (hfollow : s.triggersBindings = true → ∀ n w, R n (follow n e m w))
    (motion : Option Motion) (hi : n.get? e m = some i) :
    ∃ n₁, n.Writes n₁ e m [(admitted i ⟨e, m, v, t, d, s⟩, motion)]
        ((n.admittedCourse i ⟨e, m, v, t, d, s⟩ motion).enter
          (admitted i ⟨e, m, v, t, d, s⟩).value (admitted i ⟨e, m, v, t, d, s⟩).transition
          (admitted i ⟨e, m, v, t, d, s⟩).delay s)
        (((n.admittedCourse i ⟨e, m, v, t, d, s⟩ motion).enterTime? n.config.stepInterval.toNat
          (admitted i ⟨e, m, v, t, d, s⟩).transition
          (admitted i ⟨e, m, v, t, d, s⟩).delay).map (n.now + ·)) ∧
      R n₁ (n.start follow e m v t d s motion) := by
  simp only [start, hi]
  have hset := (Writes.refl (onCourse_of_get? hi)).modify
    (f := fun j => { j with
      motion := motion
      stepping :=
        if motion.isSome then .none else (n.trip (admitted i ⟨e, m, v, t, d, s⟩) i.present).stepping
      edgeResolved := false })
    (fun j hj => congrArg (fun c : Course => { c with
      motion := motion
      stepping :=
        if motion.isSome then .none else (n.trip (admitted i ⟨e, m, v, t, d, s⟩) i.present).stepping
      edgeResolved := false }) hj)
    fun _ => rfl
  have hnote := hset.note (admitted i ⟨e, m, v, t, d, s⟩) motion rfl rfl
  obtain ⟨j, hj, hjc⟩ := hnote.onCourse.exists_get?
  obtain ⟨n₁, hw, hh⟩ := program_writes (w := (admitted i ⟨e, m, v, t, d, s⟩).value)
    (t := (admitted i ⟨e, m, v, t, d, s⟩).transition)
    (d := (admitted i ⟨e, m, v, t, d, s⟩).delay) (s := s) hR (fun _ htr n => hfollow htr n _) hj
  rw [hjc] at hw
  exact ⟨n₁, hnote.trans hw, hh⟩

end Writing

theorem travels_of_writes {r : Request} (h : n.Writes n₁ e m [(admitted i r, none)]
    ((n.admittedCourse i r none).enter (admitted i r).value (admitted i r).transition
      (admitted i r).delay (admitted i r).source)
    (((n.admittedCourse i r none).enterTime? n.config.stepInterval.toNat
      (admitted i r).transition (admitted i r).delay).map (n.now + ·))) :
    n₁.Travels e m (n.trip (admitted i r) i.present) := by
  have hedge := Trip.enter_first (p := n.trip (admitted i r) i.present) i.target i.remaining i.delay
    i.source false
  have htime := Trip.enterTime_first (p := n.trip (admitted i r) i.present) i.target i.remaining
    i.delay i.source false
  have hsince := Trip.since_first (p := n.trip (admitted i r) i.present)
  exact ⟨_, _, n.now, Trip.has_first,
    h.onCourse.cast hedge (congrArg (Option.map (n.now + ·)) htime), h.now.ge, fun _ => hsince.symm⟩

section Follow

variable (hfollow : ∀ (n : Node) (e : UInt8) (m : Model) (v : Value),
  n.KeepsToRequests (follow n e m v))
include hfollow

theorem keepsToRequests_start : n.KeepsToRequests (n.start follow e m v t d s none) := by
  cases hi : n.get? e m with
  | none =>
    simp only [start, hi]
    exact .refl n
  | some i =>
    obtain ⟨n₁, hw, hh⟩ := start_writes (v := v) (t := t) (d := d) (s := s)
      isAftermath_keepsToRequests
      (fun _ n w => hfollow n e m w) none hi
    have ht := travels_of_writes hw
    rw [← trip_congr hw.config hw.now] at ht
    exact (hw.keepsToRequests ht).trans hh

theorem keepsToRequests_carryOut (n : Node) (r : Request) :
    n.KeepsToRequests (n.carryOut follow r) := by
  unfold carryOut
  split
  · exact keepsToRequests_start hfollow
  · exact (KeepsToRequests.refl n).tells (tells_emit n _)

end Follow

theorem closedUnderBindings_keepsToRequests : ClosedUnderBindings KeepsToRequests where
  refl := .refl
  trans := .trans
  note n _ _ _ := (KeepsToRequests.refl n).tells (tells_note (by simp))
  depth _ _ := .of_watch rfl rfl List.suffix_rfl fun _ _ => ⟨rfl, rfl⟩
  carryOut := keepsToRequests_carryOut

theorem keepsToRequests_follow (n : Node) (e : UInt8) (m : Model) (v : Value) :
    n.KeepsToRequests (n.follow e m v) :=
  closedUnderBindings_keepsToRequests.follow n e m v

end MeshNode.Node
