import MeshNode.Proofs.Transition.RequestCourse

/-! # How changes go on

When the timer for its changes fires, an instance goes on to the next leg of its trip. In a
transition with interim values the bindings follow each of them before the timer is armed again; as
long as they ask nothing of the instance itself, it stays on its trip.
-/

namespace MeshNode.Node

variable {n n' : Node} {e e' : UInt8} {m m' : Model} {i : Instance} {v w : Value} {s : Source}
  {t d : Nat} {p : Trip} {motion : Motion}

/-! ## One instance at a time -/

def stepped (n : Node) (e : UInt8) (m : Model) (i : Instance) : Node :=
  (n.modify e m fun i => { i with stepping := i.stepping.next }).visit e m
    (i.present.shift i.stepping.increment) i.source

def moved (n : Node) (e : UInt8) (m : Model) (i : Instance) (motion : Motion) : Node :=
  n.visit e m (i.present.shift motion.step) i.source

theorem stepOn_eq (n : Node) (e : UInt8) (m : Model) (i : Instance) : n.stepOn e m i =
    if i.remaining - n.config.stepInterval.toNat = 0 then
      (n.stepped e m i).settle follow e m i.target i.source
    else ((n.stepped e m i).program follow e m i.target
      (i.remaining - n.config.stepInterval.toNat) 0 i.source).publish e m := rfl

theorem moveOn_eq (n : Node) (e : UInt8) (m : Model) (i : Instance) (motion : Motion) :
    n.moveOn e m i motion =
      if i.present.shift motion.step = i.target then n.settle follow e m i.target i.source
      else ((n.moved e m i motion).program follow e m i.target motion.interval 0
        i.source).publish e m := rfl

theorem evolves_stepped (hn : n.Typed) (hi : n.get? e m = some i) :
    n.Evolves (n.stepped e m i) := by
  have hnext : n.Evolves (n.modify e m fun i => { i with stepping := i.stepping.next }) :=
    evolves_modify (fun _ => rfl) (fun _ => .inl rfl) fun _ h =>
      ⟨h.present, h.target, fun hs => h.stepping (Stepping.isActive_of_next hs), h.motion⟩
  refine hnext.trans (evolves_visit ?_)
  rw [Value.model_shift, (hn e m i hi).present]

theorem evolves_moved (hn : n.Typed) (hi : n.get? e m = some i) (motion : Motion) :
    n.Evolves (n.moved e m i motion) := by
  apply evolves_visit
  rw [Value.model_shift, (hn e m i hi).present]

section Writing

variable {R : Node → Node → Prop} (hR : IsAftermath m R)
include hR

theorem visit_writes (hfollow : s.triggersBindings = true → ∀ n, R n (n.follow e m v))
    (hi : n.get? e m = some i) :
    ∃ n₁, n.Writes n₁ e m [] { i.course with present := v }
        (n.timers.deadline? (transitionTimer e m)) ∧ R n₁ (n.visit e m v s) := by
  have hshown := (Writes.refl (onCourse_of_get? hi)).modify (f := fun i => i.display v s n.now)
    (fun j hj => congrArg (fun c : Course => { c with present := v }) hj)
    fun i => i.light.range_noting v
  refine ⟨_, hshown, ?_⟩
  unfold visit passOn
  split
  · exact hfollow ‹_› _
  · exact hR.refl _

theorem stepped_writes
    (hfollow : i.source.triggersBindings = true → ∀ n v, R n (n.follow e m v))
    (hi : n.get? e m = some i) :
    ∃ n₁, n.Writes n₁ e m [] i.course.stepped (n.timers.deadline? (transitionTimer e m)) ∧
      R n₁ (n.stepped e m i) := by
  have hstep := (Writes.refl (onCourse_of_get? hi)).modify
    (f := fun i => { i with stepping := i.stepping.next })
    (fun j hj => congrArg (fun c : Course => { c with stepping := c.stepping.next }) hj)
    fun _ => rfl
  obtain ⟨j, hj, hjc⟩ := hstep.onCourse.exists_get?
  obtain ⟨n₁, hw, hh⟩ := visit_writes (v := i.present.shift i.stepping.increment) (s := i.source)
    hR (fun htr n => hfollow htr n _) hj
  rw [hjc] at hw
  exact ⟨n₁, hstep.trans hw, hh⟩

theorem endDelay_writes
    (hfollow : i.source.triggersBindings = true → ∀ n, R n (n.follow e m i.target))
    (hi : n.get? e m = some i) :
    ∃ n₁, n.Writes n₁ e m []
        (Course.enter { i.course with delay := 0 } i.target i.remaining 0 i.source)
        ((Course.enterTime? { i.course with delay := 0 } n.config.stepInterval.toNat
          i.remaining 0).map (n.now + ·)) ∧ R n₁ (n.endDelay e m i) := by
  have hset := (Writes.refl (onCourse_of_get? hi)).modify
    (f := fun i => { i with delay := 0, pendingReply := none })
    (fun j hj => congrArg (fun c : Course => { c with delay := 0 }) hj) fun _ => rfl
  obtain ⟨j, hj, hjc⟩ := hset.onCourse.exists_get?
  obtain ⟨n₁, hw, hh⟩ := program_writes (w := i.target) (t := i.remaining) (d := 0) (s := i.source)
    hR (fun _ => hfollow) hj
  rw [hjc] at hw
  refine ⟨n₁, hset.trans hw, ?_⟩
  unfold endDelay
  dsimp only
  split
  · exact hR.tells hh (tells_sendStatus _ e m _ _ _)
  · exact hh

theorem halt_writes (hi : n.get? e m = some i) :
    ∃ n₁, n.Writes n₁ e m []
        (if i.isIdle then { i.course with motion := none } else i.course.finish i.present) none ∧
      R n₁ (n.halt e m) := by
  have hi' : (n.cancel (transitionTimer e m)).get? e m = some i := hi
  have hstop := (Writes.refl (onCourse_of_get? hi)).cancel
  simp only [halt, hi']
  split
  · have hset := hstop.modify (f := fun i => { i with motion := none })
      (fun j hj => congrArg (fun c : Course => { c with motion := none }) hj) fun _ => rfl
    exact ⟨_, hset, hR.refl _⟩
  · have hmark := hstop.modify (f := fun i => { i with edgeResolved := true })
      (fun j hj => congrArg (fun c : Course => { c with edgeResolved := true }) hj) fun _ => rfl
    have hj : ((n.cancel (transitionTimer e m)).modify e m fun i =>
        { i with edgeResolved := true }).get? e m = some { i with edgeResolved := true } := by
      rw [get?_modify_self, hi']
      rfl
    have hquiet : true = false → i.source.triggersBindings = true →
        ∀ n, R n (follow n e m i.present) := by simp
    obtain ⟨n₁, hw, hh⟩ := settle_writes hR hquiet hj
    obtain ⟨-, -, -, hd⟩ := watch_eq_some hmark.onCourse.watch_of_none
    rw [hd] at hw
    exact ⟨n₁, hmark.trans hw, hh⟩

end Writing

/-- At most one instance was put on a course, without a request, before all else was heeded. -/
def Drives (n n' : Node) (e : UInt8) (m : Model) : Prop :=
  n.KeepsToRequests n' ∨ ∃ n₁ c d, n.Writes n₁ e m [] c d ∧ n₁.KeepsToRequests n'

theorem drives_program : n.Drives (n.program follow e m w t d s) e m := by
  cases hi : n.get? e m with
  | none =>
    simp only [program, hi]
    exact .inl (KeepsToRequests.refl n)
  | some i =>
    obtain ⟨n₁, hw, hh⟩ := program_writes (w := w) (t := t) (d := d) (s := s)
      isAftermath_keepsToRequests
      (fun _ _ n => keepsToRequests_follow n e m w) hi
    exact .inr ⟨n₁, _, _, hw, hh⟩

theorem drives_settle : n.Drives (n.settle follow e m w s) e m := by
  cases hi : n.get? e m with
  | none =>
    simp only [settle, hi]
    exact .inl (KeepsToRequests.refl n)
  | some i =>
    obtain ⟨n₁, hw, hh⟩ := settle_writes (w := w) (s := s) isAftermath_keepsToRequests
      (fun _ _ n => keepsToRequests_follow n e m w) hi
    exact .inr ⟨n₁, _, _, hw, hh⟩

theorem Drives.publish (h : n.Drives n' e m) : n.Drives (n'.publish e m) e m := by
  have ht := tells_publish n' e m
  rcases h with h | ⟨n₁, c, d, hw, hh⟩
  · exact .inl (h.tells ht)
  · exact .inr ⟨n₁, c, d, hw, hh.tells ht⟩

theorem Drives.keepsToRequestsAt (h : n.Drives n' e m) (hx : (e', m') ≠ (e, m)) :
    n.KeepsToRequestsAt n' e' m' := by
  rcases h with h | ⟨n₁, c, d, hw, hh⟩
  · exact h e' m'
  · exact (hw.keepsToRequestsAt hx).trans (hh e' m')

theorem Drives.suffix (h : n.Drives n' e m) : n.requestsFor e m <:+ n'.requestsFor e m := by
  rcases h with h | ⟨n₁, c, d, hw, hh⟩
  · exact (h e m).suffix
  · have hsuffix := (hh e m).suffix
    rwa [hw.requests] at hsuffix

/-! ## What the timer brings about -/

/-- The node once the bindings have followed the interim value that the timer for the changes of
an instance brings up, if it brings one up. -/
def interim? (n : Node) (e : UInt8) (m : Model) : Option Node :=
  match n.get? e m with
  | none => none
  | some i =>
    if 0 < i.delay ∨ i.remaining = 0 then none
    else
      match i.motion with
      | some motion =>
        if i.present.shift motion.step = i.target then none else some (n.moved e m i motion)
      | none => if i.stepping.isActive then some (n.stepped e m i) else none

/-- Everything that the timer for the changes of an instance can bring about. -/
inductive Onward (n : Node) (e : UInt8) (m : Model) : Node → Prop where
  | absent (h : n.get? e m = none) (hmid : n.interim? e m = none) : Onward n e m n
  | idle {i : Instance} (hi : n.get? e m = some i) (hidle : ¬ (0 < i.delay ∨ 0 < i.remaining))
    (hmid : n.interim? e m = none) : Onward n e m n
  | begin {i : Instance} (hi : n.get? e m = some i) (hmid : n.interim? e m = none)
    (hd : 0 < i.delay) : Onward n e m (n.endDelay e m i)
  | arrive {i : Instance} (hi : n.get? e m = some i) (hmid : n.interim? e m = none) :
    Onward n e m (n.settle follow e m i.target i.source)
  | move {i : Instance} {motion : Motion} (hi : n.get? e m = some i) (hm : i.motion = some motion)
    (hmid : n.interim? e m = some (n.moved e m i motion)) :
    Onward n e m (((n.moved e m i motion).program follow e m i.target motion.interval 0
      i.source).publish e m)
  | step {i : Instance} (hi : n.get? e m = some i) (hm : i.motion = none)
    (ha : i.stepping.isActive = true) (hmid : n.interim? e m = some (n.stepped e m i)) :
    Onward n e m (n.stepOn e m i)

theorem onward (n : Node) (e : UInt8) (m : Model) : n.Onward e m (n.onTransition e m) := by
  cases hi : n.get? e m with
  | none =>
    have h : n.onTransition e m = n := by simp only [onTransition, hi]
    rw [h]
    exact .absent hi (by simp only [interim?, hi])
  | some i =>
    simp only [onTransition, hi]
    split
    next hd => exact .begin hi (by simp only [interim?, hi, hd, true_or, if_true]) hd
    next hd =>
      split
      next hr =>
        have hrun : ¬ (0 < i.delay ∨ i.remaining = 0) := by omega
        cases hm : i.motion with
        | some motion =>
          dsimp only
          rw [moveOn_eq]
          split
          next hstop => exact .arrive hi (by simp [interim?, hi, hm, hstop])
          next hstop => exact .move hi hm (by simp [interim?, hi, hrun, hm, hstop])
        | none =>
          dsimp only
          split
          next ha => exact .step hi hm ha (by simp [interim?, hi, hrun, hm, ha])
          next ha => exact .arrive hi (by simp [interim?, hi, hm, ha])
      next hr => exact .idle hi (by omega) (by simp [interim?, hi, Nat.eq_zero_of_not_pos hr])

theorem interim?_writes {mid : Node} (hmid : n.interim? e m = some mid) :
    ∃ n₁ c d, n.Writes n₁ e m [] c d ∧ n₁.KeepsToRequests mid := by
  have h := n.onward e m
  generalize n.onTransition e m = n' at h
  cases h with
  | absent _ hnone | idle _ _ hnone | begin _ hnone | arrive _ hnone =>
    cases hnone.symm.trans hmid
  | @move i motion hi hm hsome =>
    obtain rfl := Option.some.inj (hsome.symm.trans hmid)
    obtain ⟨n₁, hw, hh⟩ := visit_writes (v := i.present.shift motion.step) (s := i.source)
      isAftermath_keepsToRequests (fun _ n => keepsToRequests_follow n e m _) hi
    exact ⟨n₁, _, _, hw, hh⟩
  | @step i hi hm ha hsome =>
    obtain rfl := Option.some.inj (hsome.symm.trans hmid)
    obtain ⟨n₁, hw, hh⟩ := stepped_writes isAftermath_keepsToRequests
      (fun _ n v => keepsToRequests_follow n e m v) hi
    exact ⟨n₁, _, _, hw, hh⟩

/-- Once the bindings have followed an interim value, if there is one, the instance is put on its
course before all else is heeded. -/
theorem drives_onTransition : ((n.interim? e m).getD n).Drives (n.onTransition e m) e m := by
  have h := n.onward e m
  generalize n.onTransition e m = n' at h ⊢
  cases h with
  | absent _ hmid | idle _ _ hmid =>
    rw [hmid]
    exact .inl (KeepsToRequests.refl n)
  | begin hi hmid =>
    rw [hmid]
    obtain ⟨n₁, hw, hh⟩ := endDelay_writes isAftermath_keepsToRequests
      (fun _ n => keepsToRequests_follow n e m _) hi
    exact .inr ⟨n₁, _, _, hw, hh⟩
  | arrive hi hmid =>
    rw [hmid]
    exact drives_settle
  | move hi hm hmid =>
    rw [hmid]
    exact drives_program.publish
  | step hi hm ha hmid =>
    rw [hmid, stepOn_eq]
    split
    · exact drives_settle
    · exact drives_program.publish

theorem keepsToRequestsAt_onTransition (hx : (e', m') ≠ (e, m)) :
    n.KeepsToRequestsAt (n.onTransition e m) e' m' := by
  have hdrives := (drives_onTransition (n := n) (e := e) (m := m)).keepsToRequestsAt hx
  cases hmid : n.interim? e m with
  | none =>
    rw [hmid] at hdrives
    exact hdrives
  | some mid =>
    rw [hmid] at hdrives
    obtain ⟨n₁, c, d, hw, hh⟩ := interim?_writes hmid
    exact ((hw.keepsToRequestsAt hx).trans (hh e' m')).trans hdrives

/-! ## Being overtaken -/

/-- Bindings that followed an interim value of an instance asked something of the instance. -/
def Overtaken (n : Node) (e : UInt8) (m : Model) : Prop :=
  ∃ mid, n.interim? e m = some mid ∧ mid.requestsFor e m ≠ n.requestsFor e m

theorem quiet_of_not_overtaken (hq : ¬ n.Overtaken e m) {mid : Node}
    (hmid : n.interim? e m = some mid) : mid.requestsFor e m = n.requestsFor e m := by
  by_contra hne
  exact hq ⟨mid, hmid, hne⟩

theorem not_overtaken_of_quiet (hr : (n.onTransition e m).requestsFor e m = n.requestsFor e m) :
    ¬ n.Overtaken e m := by
  rintro ⟨mid, hmid, hne⟩
  have hdrives := drives_onTransition (n := n) (e := e) (m := m)
  rw [hmid] at hdrives
  have hsuffix := hdrives.suffix
  obtain ⟨n₁, c, d, hw, hh⟩ := interim?_writes hmid
  have hsuffix₁ := (hh e m).suffix
  rw [hw.requests] at hsuffix₁
  rw [hr] at hsuffix
  exact hne (hsuffix₁.eq_of_length_le hsuffix.length_le).symm

/-- The instance took up moves at most before everything that it took up was heeded. -/
def Attends (n n' : Node) (e : UInt8) (m : Model) : Prop :=
  ∃ (n₁ : Node) (moves : List (Request × Option Motion)),
    n₁.requestsFor e m = moves ++ n.requestsFor e m ∧ (∀ x ∈ moves, x.2.isSome) ∧
      n₁.KeepsToRequestsAt n' e m

theorem KeepsToRequestsAt.attends (h : n.KeepsToRequestsAt n' e m) :
    n.Attends n' e m :=
  ⟨n, [], rfl, by simp, h⟩

theorem Writes.attends {n₁ : Node} {c : Course} {k : Option Nat} (hw : n.Writes n₁ e m [] c k)
    (h : n₁.KeepsToRequests n') : n.Attends n' e m :=
  ⟨n₁, [], hw.requests, by simp, h e m⟩

/-- The last request that was no move sends the instance on its trip. -/
theorem Attends.travels (h : n.Attends n' e m) {r : Request}
    {rest : List (Request × Option Motion)} (hr : n'.requestsFor e m = (r, none) :: rest)
    (hne : n'.requestsFor e m ≠ n.requestsFor e m) :
    ∃ origin, n'.Travels e m (n'.trip r origin) := by
  obtain ⟨n₁, moves, hn₁, hmoves, hh⟩ := h
  apply hh.travels hr
  intro heq
  rw [heq, hn₁] at hr hne
  cases moves with
  | nil => exact hne rfl
  | cons x moves =>
    have hx := hmoves x (by simp)
    rw [(List.cons.inj hr).1] at hx
    cases hx

theorem Drives.attends (h : n.Drives n' e m) : n.Attends n' e m := by
  rcases h with h | ⟨n₁, c, k, hw, hh⟩
  · exact (h e m).attends
  · exact hw.attends hh

theorem Attends.of_requestsFor {mid : Node} (h : mid.Attends n' e m)
    (hr : mid.requestsFor e m = n.requestsFor e m) : n.Attends n' e m := by
  obtain ⟨n₁, moves, hn₁, hmoves, hh⟩ := h
  exact ⟨n₁, moves, by rw [hn₁, hr], hmoves, hh⟩

/-- An instance that is not overtaken takes up requests only once it has gone on. -/
theorem attends_onTransition (hq : ¬ n.Overtaken e m) : n.Attends (n.onTransition e m) e m := by
  have hattends := (drives_onTransition (n := n) (e := e) (m := m)).attends
  cases hmid : n.interim? e m with
  | none =>
    rw [hmid] at hattends
    exact hattends
  | some mid =>
    rw [hmid] at hattends
    exact hattends.of_requestsFor (quiet_of_not_overtaken hq hmid)

/-! ## On a trip -/

section Trip

variable {leg : Trip.Leg} {edge : Bool} {k : Nat}

/-- An instance begins a leg of its trip now, at its time if that is within the clock. -/
def BeginsLeg (n : Node) (e : UInt8) (m : Model) (p : Trip) (leg : Trip.Leg) : Prop :=
  p.Has leg ∧ (∃ edge, n.OnCourse e m (p.course edge leg) ((p.length? leg).map (n.now + ·))) ∧
    (n.timers.WithinClock → n.now = p.since leg)

theorem BeginsLeg.travels (h : n.BeginsLeg e m p leg) : n.Travels e m p := by
  obtain ⟨hleg, ⟨edge, hcourse⟩, hsince⟩ := h
  exact ⟨leg, edge, n.now, hleg, hcourse, Nat.le_refl _, hsince⟩

/-- The instance begins a leg of its trip before all else is heeded. -/
def Resumes (n n' : Node) (e : UInt8) (m : Model) (p : Trip) (leg : Trip.Leg) : Prop :=
  ∃ n₁ : Node, n₁.requestsFor e m = n.requestsFor e m ∧ n₁.now = n.now ∧
    n₁.BeginsLeg e m p leg ∧ n₁.KeepsToRequests n'

theorem Writes.resumes {n₁ : Node} {c : Course} {d : Option Nat} (hw : n.Writes n₁ e m [] c d)
    (hh : n₁.KeepsToRequests n') (hleg : p.Has leg) (hc : c = p.course edge leg)
    (hd : d = (p.length? leg).map (n.now + ·))
    (hs : n.timers.WithinClock → n.now = p.since leg) : n.Resumes n' e m p leg := by
  subst hc hd
  have hcourse := hw.onCourse
  rw [← hw.now] at hcourse
  refine ⟨n₁, hw.requests, hw.now, ⟨hleg, ⟨edge, hcourse⟩, fun hin => ?_⟩, hh⟩
  exact hw.now.trans (hs (hin.of_suffix hw.armings))

theorem resumes_endDelay (hi : n.get? e m = some i) (hic : i.course = p.course edge .waiting)
    (hp : p.interval = n.config.stepInterval.toNat)
    (hd : n.timers.WithinClock → n.now = p.departure) :
    n.Resumes (n.endDelay e m i) e m p p.depart := by
  obtain ⟨n₁, hw, hh⟩ := endDelay_writes isAftermath_keepsToRequests
    (fun _ n => keepsToRequests_follow n e m _) hi
  obtain ⟨-, ht, hr, -, hs, -⟩ := Course.mk.injEq .. ▸ hic
  have hedge := p.enter_depart p.request.value p.request.transition 0 p.request.source edge
  have htime := p.enterTime_depart p.request.value p.request.transition 0 p.request.source edge
  rw [hic, ht, hr, hs, ← hp] at hw
  refine hw.resumes hh Trip.has_depart hedge (congrArg _ htime) fun hin => ?_
  exact (hd hin).trans Trip.since_depart.symm

theorem resumes_stepOn (hi : n.get? e m = some i) (hic : i.course = p.course edge (.running k))
    (hd? : n.timers.deadline? (transitionTimer e m) = none)
    (hp : p.interval = n.config.stepInterval.toNat) (hk : k + 1 < p.stepping.steps)
    (hd : n.timers.WithinClock → n.now = p.departure + (k + 1) * p.interval)
    (hquiet : (n.stepped e m i).requestsFor e m = n.requestsFor e m) :
    n.Resumes (n.stepOn e m i) e m p (.running (k + 1)) := by
  obtain ⟨-, ht, hr, -, hs, -⟩ := Course.mk.injEq .. ▸ hic
  obtain ⟨n₁, hw, hh⟩ := stepped_writes isAftermath_keepsToRequests
    (fun _ n v => keepsToRequests_follow n e m v) hi
  have hsame : (n.stepped e m i).watch e m = n₁.watch e m :=
    (hh e m).watch (hquiet.trans hw.requests.symm)
  rw [hd?] at hw
  rw [hw.onCourse.watch_of_none, hic, Trip.stepped_course hk] at hsame
  obtain ⟨j, hj, hjc, -⟩ := watch_eq_some hsame
  have hremaining : i.remaining - n.config.stepInterval.toNat ≠ 0 := by
    rw [hr, ← hp]
    exact (Trip.remaining_pos hk).ne'
  rw [stepOn_eq, if_neg hremaining]
  obtain ⟨n₂, hw₂, hh₂⟩ := program_writes (w := i.target)
    (t := i.remaining - n.config.stepInterval.toNat) (d := 0) (s := i.source)
    isAftermath_keepsToRequests (fun _ _ n => keepsToRequests_follow n e m _) hj
  have hconfig : (n.stepped e m i).config = n.config := hh.config.trans hw.config
  have hnow : (n.stepped e m i).now = n.now := hh.now.trans hw.now
  have harmings := hw.armings.trans hh.armings
  rw [hr, ht, hs, hconfig, ← hp, hjc, Trip.enterTime_step hk edge, Trip.enter_step hk edge] at hw₂
  have hleg : p.Has (.running (k + 1)) := by
    have := Trip.remaining_pos hk
    exact ⟨by omega, Or.inr hk⟩
  obtain ⟨n₃, hn₃, hnow₃, htr, hh₃⟩ := hw₂.resumes (hh₂.tells (tells_publish _ e m)) hleg rfl rfl
    fun hin => hnow.trans (hd (hin.of_suffix harmings))
  exact ⟨n₃, hn₃.trans hquiet, hnow₃.trans hnow, htr, hh₃⟩

theorem resumes_settle (hi : n.get? e m = some i) (hic : i.course = p.course edge leg)
    (hd? : n.timers.deadline? (transitionTimer e m) = none)
    (hd : n.timers.WithinClock → n.now = p.arrival) :
    n.Resumes (n.settle follow e m i.target i.source) e m p .arrived := by
  have ht : i.target = p.request.value := by
    have := congrArg Course.target hic
    cases leg <;> exact this
  obtain ⟨n₁, hw, hh⟩ := settle_writes (w := i.target) (s := i.source) isAftermath_keepsToRequests
    (fun _ _ n => keepsToRequests_follow n e m _) hi
  rw [ht, hic, Trip.finish_course, hd?] at hw
  rw [ht] at hh ⊢
  have harrived : p.Has .arrived := trivial
  exact hw.resumes hh harrived rfl rfl hd

/-- When a leg of a trip ends and the instance is not overtaken, it goes on to the next one. -/
theorem resumes_onTransition (hw : n.watch e m = (some (p.course edge leg), none))
    (hleg : p.Has leg) (hne : (p.length? leg).isSome)
    (hp : p.interval = n.config.stepInterval.toNat) (hpos : 0 < p.interval)
    (hd : n.timers.WithinClock → p.deadline? leg = some n.now) (hq : ¬ n.Overtaken e m) :
    n.Resumes (n.onTransition e m) e m p (p.next leg) := by
  obtain ⟨i, hi, hic, hd?⟩ := watch_eq_some hw
  obtain ⟨-, -, hr, hdelay, -, hst, hm, -⟩ := Course.mk.injEq .. ▸ hic
  simp only [onTransition, hi]
  cases leg with
  | waiting =>
    have hwait : 0 < i.delay := hdelay ▸ hleg
    rw [if_pos hwait]
    exact resumes_endDelay hi hic hp fun hin => (Option.some.inj (hd hin)).symm
  | running k =>
    have hrun : 0 < i.remaining := hr ▸ Trip.remaining_running hleg hpos
    have hm : i.motion = none := hm
    have hwait : ¬ 0 < i.delay := by simp [hdelay]
    rw [if_neg hwait, if_pos hrun, hm]
    dsimp only
    -- The last two steps are taken in one go, so with one step to come the trip ends.
    by_cases hk : k + 1 < p.stepping.steps
    · have hactive : i.stepping.isActive = true := by
        rw [hst]
        simp only [Stepping.isActive, decide_eq_true_eq, if_pos hk]
        omega
      have hmid : n.interim? e m = some (n.stepped e m i) := by
        simp [interim?, hi, hm, hactive, hdelay, hrun.ne']
      rw [if_pos hactive, Trip.next, if_pos hk]
      refine resumes_stepOn hi hic hd? hp hk (fun hin => ?_) (quiet_of_not_overtaken hq hmid)
      simpa [Trip.deadline?, hk] using (hd hin).symm
    · have hactive : ¬ i.stepping.isActive = true := by
        rw [hst]
        simp [Stepping.isActive, hk]
      rw [if_neg hactive, Trip.next, if_neg hk]
      refine resumes_settle hi hic hd? fun hin => ?_
      simpa [Trip.deadline?, hk] using (hd hin).symm
  | arrived => cases hne

end Trip

end MeshNode.Node
