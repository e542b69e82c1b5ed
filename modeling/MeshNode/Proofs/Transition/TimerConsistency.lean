import MeshNode.Proofs.Node.NewNodes
import MeshNode.Proofs.Bindings.CalmBindings
import MeshNode.Proofs.Transition.TimerProgress

/-! # Timers and instances agree

As long as all bindings are calm, the timer for the changes of an instance is armed exactly while
the instance is busy, an idle instance has nothing left of a change, and the steps that are left of
a transition are those that fit into the time that is left.
-/

namespace MeshNode

variable {m : Model} {i : Instance} {k t d : Nat} {w : Value} {s : Source}

namespace Course

structure Typed (m : Model) (c : Course) : Prop where
  present : c.present.model = m
  target : c.target.model = m
  stepping : c.stepping.isActive → m = .level ∨ m = .lightness
  motion : c.motion.isSome → m = .level

/-- The course agrees with its timer, where interim steps take `k` milliseconds, and a motion leads
to the target. -/
structure IsConsistent (k : Nat) (c : Course) (deadline : Option Nat) : Prop where
  armed : deadline.isSome = true ↔ 0 < c.delay ∨ 0 < c.remaining
  idle : ¬ (0 < c.delay ∨ 0 < c.remaining) →
    c.motion = none ∧ c.stepping = .none ∧ c.edgeResolved = false
  stepping : 0 < c.stepping.steps →
    c.motion = none ∧ c.stepping.steps = c.remaining / k ∧ 2 ≤ c.stepping.steps
  motion : ∀ motion, c.motion = some motion → motion.LeadsTo c.target

variable {c : Course}

theorem typed_finish (c : Course) (hw : w.model = m) : (c.finish w).Typed m :=
  ⟨hw, hw, by simp [Course.finish, Stepping.none, Stepping.isActive], by simp [Course.finish]⟩

theorem Typed.enter (hc : c.Typed m) (hw : w.model = m) : (c.enter w t d s).Typed m := by
  unfold Course.enter
  dsimp only
  split
  · exact ⟨hc.present, hw, hc.stepping, hc.motion⟩
  · split
    · split
      · exact ⟨hw, hw, hc.stepping, hc.motion⟩
      · exact ⟨hc.present, hw, hc.stepping, hc.motion⟩
    · exact typed_finish _ hw

theorem Typed.stepped (hc : c.Typed m) : c.stepped.Typed m where
  present := (Value.model_shift ..).trans hc.present
  target := hc.target
  stepping hs := hc.stepping (Stepping.isActive_of_next hs)
  motion := hc.motion

theorem isConsistent_finish (k : Nat) (c : Course) (w : Value) :
    (c.finish w).IsConsistent k none where
  armed := by simp [finish]
  idle _ := ⟨rfl, rfl, rfl⟩
  stepping h := by simp [finish, Stepping.none] at h
  motion _ h := by cases h

/-- A request that is entered keeps a course consistent if the steps planned fit into its time, and
a motion leads where it asks. -/
theorem isConsistent_enter {now : Nat}
    (hs : 0 < c.stepping.steps → c.motion = none ∧ c.stepping.steps = t / k ∧ 2 ≤ c.stepping.steps)
    (hm : ∀ motion, c.motion = some motion → motion.LeadsTo w) :
    (c.enter w t d s).IsConsistent k ((c.enterTime? k t d).map (now + ·)) := by
  unfold enter enterTime?
  dsimp only
  split
  next hd => exact ⟨by simp [hd], fun h => absurd (.inl hd) h, hs, hm⟩
  next hd =>
    split
    next ht =>
      split
      · exact ⟨by simp [ht], fun h => absurd (.inr ht) h, hs, hm⟩
      · exact ⟨by simp [ht], fun h => absurd (.inr ht) h, hs, hm⟩
    next => exact isConsistent_finish k _ w

theorem IsConsistent.congr {d d' : Option Nat} (hc : c.IsConsistent k d)
    (h : d'.isSome = d.isSome) : c.IsConsistent k d' :=
  ⟨h ▸ hc.armed, hc.idle, hc.stepping, hc.motion⟩

theorem IsConsistent.next {deadline : Option Nat} (hc : c.IsConsistent k deadline)
    (hs : 0 < c.stepping.next.steps) :
    c.motion = none ∧ c.stepping.next.steps = (c.remaining - k) / k ∧
      2 ≤ c.stepping.next.steps := by
  simp only [Stepping.next] at hs ⊢
  split at hs
  · cases hs
  next h2 =>
    obtain ⟨hm, heq, hle⟩ := hc.stepping (by omega)
    rw [if_neg h2]
    have hdiv := Nat.sub_mul_div c.remaining k 1
    rw [Nat.mul_one] at hdiv
    refine ⟨hm, ?_, by omega⟩
    omega

theorem IsConsistent.lt_remaining {deadline : Option Nat} (hc : c.IsConsistent k deadline)
    (hk : 0 < k) (hs : 0 < c.stepping.steps) : k < c.remaining := by
  obtain ⟨-, heq, hle⟩ := hc.stepping hs
  have hmul : k * (c.remaining / k) ≤ c.remaining := Nat.mul_div_le ..
  rw [← heq] at hmul
  have : k * 2 ≤ k * c.stepping.steps := Nat.mul_le_mul_left k hle
  omega

end Course

theorem Instance.Typed.course (h : i.Typed m) : i.course.Typed m :=
  ⟨h.present, h.target, h.stepping, h.motion⟩

namespace Node

variable {n n' n₁ : Node} {e e' : UInt8} {m' : Model} {c : Course} {v : Value}
  {new : List (Request × Option Motion)} {d? : Option Nat} {motion : Option Motion}

def ConsistentAt (k : Nat) (n : Node) (e : UInt8) (m : Model) : Prop :=
  ∀ c d, n.watch e m = (some c, d) → c.IsConsistent k d

def Consistent (k : Nat) (n : Node) : Prop := ∀ e m, n.ConsistentAt k e m

theorem ConsistentAt.congr (h : n.ConsistentAt k e m) (hw : n'.watch e m = n.watch e m) :
    n'.ConsistentAt k e m :=
  fun c d hc => h c d (hw.symm.trans hc)

theorem Consistent.congr (h : n.Consistent k) (hw : ∀ e m, n'.watch e m = n.watch e m) :
    n'.Consistent k :=
  fun e m => (h e m).congr (hw e m)

theorem consistentAt_of_watch (hw : n.watch e m = (some c, d?)) (hc : c.IsConsistent k d?) :
    n.ConsistentAt k e m := by
  intro c' d hw'
  obtain ⟨hcc, rfl⟩ := Prod.mk.injEq .. ▸ hw.symm.trans hw'
  obtain rfl := Option.some.inj hcc
  exact hc

theorem OnCourse.consistentAt (h : n₁.OnCourse e m c d?) (hc : c.IsConsistent k d?)
    (hw : n'.watch e m = n₁.watch e m) : n'.ConsistentAt k e m :=
  consistentAt_of_watch (hw.trans (Prod.ext h.course rfl)) (hc.congr h.armed)

theorem consistentAt_of_get? (hi : n.get? e m = none) : n.ConsistentAt k e m := by
  intro c d hw
  simp [watch, hi] at hw

theorem consistent_of_others (h : n.ConsistentAt k e m)
    (ho : ∀ e' m', (e', m') ≠ (e, m) → n.ConsistentAt k e' m') : n.Consistent k := by
  intro e' m'
  by_cases hx : (e', m') = (e, m)
  · obtain ⟨rfl, rfl⟩ := Prod.mk.injEq .. ▸ hx
    exact h
  · exact ho e' m' hx

theorem ConsistentAt.calms {m' : Model} (h : n.ConsistentAt k e m') (hc : n.Calms m n') :
    n'.ConsistentAt k e m' := by
  rcases hc e m' with ⟨-, hsame⟩ | ⟨-, c, w, hfinish⟩
  · exact h.congr hsame
  · exact consistentAt_of_watch hfinish (Course.isConsistent_finish k c w)

theorem Consistent.calms (h : n.Consistent k) (hc : n.Calms m n') : n'.Consistent k :=
  fun e m => (h e m).calms hc

theorem Writes.typed (hw : n.Writes n₁ e m new c d?) (hn : n.Typed) (hc : c.Typed m) :
    n₁.Typed := by
  intro e' m' i hi
  by_cases hx : (e', m') = (e, m)
  · obtain ⟨rfl, rfl⟩ := Prod.mk.injEq .. ▸ hx
    obtain ⟨j, hj, hjc⟩ := hw.onCourse.exists_get?
    obtain rfl : i = j := Option.some.inj (hi.symm.trans hj)
    subst hjc
    exact ⟨hc.present, hc.target, hc.stepping, hc.motion⟩
  · have hsame := (hw.others e' m' hx).2
    rw [watch_of_get? hi] at hsame
    obtain ⟨j, hj, hjc, -⟩ := watch_eq_some hsame.symm
    exact (hn e' m' j hj).congr hjc.symm

theorem Writes.isCalm (hw : n.Writes n₁ e m new c d?) (hcalm : n.IsCalm) : n₁.IsCalm := by
  rw [IsCalm, hw.bindings]
  exact hcalm

theorem typed_admittedCourse {r : Request} (hi : i.Typed m) (hv : r.value.model = m)
    (hm : motion.isSome → m = .level) : (n.admittedCourse i r motion).Typed m := by
  refine ⟨hi.present, hi.target, fun hs => ?_, hm⟩
  simp only [admittedCourse] at hs
  split at hs
  · cases hs
  · rw [← (model_confine i r.value).trans hv]
    exact Value.model_of_position? (Stepping.position?_of_plan hs)

/-- What follows in the end leaves one instance on the course that it was put on, and all others
consistent. -/
theorem Writes.consistentAt (hw : n.Writes n₁ e m new c d?) (hn : n.Typed) (hcalm : n.IsCalm)
    (ho : ∀ e' m', (e', m') ≠ (e, m) → n.ConsistentAt k e' m') (hct : c.Typed m)
    (hR : n₁.Typed → n₁.IsCalm → n₁.Calms m n') :
    n'.watch e m = n₁.watch e m ∧ ∀ e' m', (e', m') ≠ (e, m) → n'.ConsistentAt k e' m' := by
  have hcalms := hR (hw.typed hn hct) (hw.isCalm hcalm)
  constructor
  · exact hcalms.watch e
  · intro e' m' hx
    exact ((ho e' m' hx).congr (hw.others e' m' hx).2).calms hcalms

theorem Writes.consistent (hw : n.Writes n₁ e m new c d?) (hn : n.Typed) (hcalm : n.IsCalm)
    (ho : ∀ e' m', (e', m') ≠ (e, m) → n.ConsistentAt k e' m') (hct : c.Typed m)
    (hc : c.IsConsistent k d?) (hR : n₁.Typed → n₁.IsCalm → n₁.Calms m n') :
    n'.Consistent k := by
  obtain ⟨hself, hothers⟩ := hw.consistentAt hn hcalm ho hct hR
  exact consistent_of_others (hw.onCourse.consistentAt hc hself) hothers

/-! ## Requests and moves -/

section Calls

variable (hn : n.Typed) (hcalm : n.IsCalm) (hk : k = n.config.stepInterval.toNat)
include hn hcalm hk

theorem consistent_start (hc : n.Consistent k) (hv : v.model = m)
    (hm : motion.isSome → m = .level)
    (hlead : ∀ i k, n.get? e m = some i → motion = some k → k.LeadsTo (confine i v)) :
    (n.start follow e m v t d s motion).Consistent k := by
  cases hi : n.get? e m with
  | none =>
    simp only [start, hi]
    exact hc
  | some i =>
    obtain ⟨n₁, hw, hR⟩ := start_writes (v := v) (t := t) (d := d) (s := s)
      (isAftermath_calms m) (fun _ n w hn hc => calms_follow hn hc e w) motion hi
    have hvalue : (confine i v).model = m := (model_confine i v).trans hv
    refine hw.consistent hn hcalm (fun e' m' _ => hc e' m') ?_ ?_ hR
    · exact (typed_admittedCourse (hn e m i hi) hv hm).enter hvalue
    · rw [← hk]
      refine Course.isConsistent_enter (fun hs => ?_) fun k hk => hlead i k hi hk
      simp only [admittedCourse] at hs ⊢
      split at hs
      · cases hs
      next hmotion =>
        rw [if_neg hmotion]
        have hnone : motion = none := by simpa using hmotion
        rcases Trip.stepping_cases (p := n.trip (admitted i ⟨e, m, v, t, d, s⟩) i.present)
          with h0 | ⟨hle, heq, -⟩
        · rw [h0] at hs
          cases hs
        · exact ⟨hnone, hk ▸ heq, hle⟩

omit hk in
theorem consistent_follow (hc : n.Consistent k) (e : UInt8) (m : Model) (v : Value) :
    (n.follow e m v).Consistent k :=
  hc.calms (calms_follow hn hcalm e v)

omit hk in
theorem consistent_halt (hc : n.Consistent k) (e : UInt8) (m : Model) :
    (n.halt e m).Consistent k := by
  cases hi : n.get? e m with
  | none =>
    have hi' : (n.cancel (transitionTimer e m)).get? e m = none := hi
    simp only [halt, hi']
    apply consistent_of_others (consistentAt_of_get? hi')
    intro e' m' hx
    exact (hc e' m').congr (watch_cancel_of_ne hx)
  | some i =>
    obtain ⟨n₁, hw, hR⟩ := halt_writes (isAftermath_calms m) hi
    have ht := hn e m i hi
    refine hw.consistent hn hcalm (fun e' m' _ => hc e' m') ?_ ?_ hR
    · split
      · exact ⟨ht.present, ht.target, ht.stepping, by simp⟩
      · exact Course.typed_finish _ ht.present
    · split
      next hidle =>
        have hbusy : ¬ (0 < i.course.delay ∨ 0 < i.course.remaining) :=
          Instance.phase_eq_idle_iff.mp (of_decide_eq_true hidle)
        obtain ⟨-, hs, hedge⟩ := (hc e m _ _ (watch_of_get? hi)).idle hbusy
        exact ⟨by simp [hbusy], fun _ => ⟨rfl, hs, hedge⟩, by simp [hs, Stepping.none],
          fun _ => (by cases ·)⟩
      next => exact Course.isConsistent_finish k _ _

theorem Works.consistent (h : n.Works n') (hc : n.Consistent k) : n'.Consistent k := by
  induction h with
  | tells h => exact hc.congr h.watch
  | books e m hcourse _ _ _ => exact hc.congr (watch_modify_of_course hcourse)
  | start e v t d s => exact consistent_start hn hcalm hk hc rfl (by simp) (by simp)
  | follow n e m v => exact consistent_follow hn hcalm hc e m v
  | listeners n _ => exact hc.congr fun _ _ => rfl
  | @trans n n₁ n₂ h h' ih ih' =>
    have he := h.evolves
    refine ih' (he.typed hn) ?_ (by rw [he.config, hk]) (ih hn hcalm hk hc)
    rw [IsCalm, he.bindings]
    exact hcalm

theorem Moves.consistent (h : n.Moves e n') (hc : n.Consistent k) : n'.Consistent k := by
  cases h with
  | stay => exact hc
  | halt => exact consistent_halt hn hcalm hc e .level
  | start bound t d motion hm =>
    refine consistent_start hn hcalm hk hc rfl (fun _ => rfl) ?_
    rintro i _ - ⟨⟩
    exact hm

end Calls

/-! ## The timer for the changes of an instance -/

theorem IsCalm.evolves (h : n.IsCalm) (he : n.Evolves n') : n'.IsCalm := by
  rw [IsCalm, he.bindings]
  exact h

section Timer

variable (hn : n.Typed) (hcalm : n.IsCalm) (hk : k = n.config.stepInterval.toNat)
  (ho : ∀ e' m', (e', m') ≠ (e, m) → n.ConsistentAt k e' m')
include hn hcalm ho

theorem consistent_settle (hi : n.watch e m = (some c, none)) (hw : w.model = m) :
    (n.settle follow e m w s).Consistent k := by
  obtain ⟨i, hi, -, hd⟩ := watch_eq_some hi
  obtain ⟨n₁, hwrites, hR⟩ := settle_writes (w := w) (s := s) (isAftermath_calms m)
    (fun _ _ n hn hc => calms_follow hn hc e w) hi
  rw [hd] at hwrites
  exact hwrites.consistent hn hcalm ho (Course.typed_finish _ hw)
    (Course.isConsistent_finish k _ w) hR

include hk

theorem consistent_program (hi : n.get? e m = some i) (hw : w.model = m)
    (hs : 0 < i.stepping.steps →
      i.motion = none ∧ i.stepping.steps = t / k ∧ 2 ≤ i.stepping.steps)
    (hm : ∀ motion, i.motion = some motion → motion.LeadsTo w) :
    ((n.program follow e m w t d s).publish e m).Consistent k := by
  obtain ⟨n₁, hwrites, hR⟩ := program_writes (w := w) (t := t) (d := d) (s := s)
    (isAftermath_calms m) (fun _ _ n hn hc => calms_follow hn hc e w) hi
  refine Consistent.congr ?_ (tells_publish _ e m).watch
  rw [← hk] at hwrites
  exact hwrites.consistent hn hcalm ho ((hn e m i hi).course.enter hw)
    (Course.isConsistent_enter hs hm) hR

theorem consistent_stepOn (hi : n.get? e m = some i)
    (hd : n.timers.deadline? (transitionTimer e m) = none)
    (hc : i.course.IsConsistent k d?) : (n.stepOn e m i).Consistent k := by
  have ht := hn e m i hi
  obtain ⟨n₁, hwrites, hR⟩ := stepped_writes (isAftermath_calms m)
    (fun _ n v hn hc => calms_follow hn hc e v) hi
  rw [hd] at hwrites
  obtain ⟨hself, hothers⟩ := hwrites.consistentAt hn hcalm ho ht.course.stepped hR
  have he := evolves_stepped hn hi
  rw [stepOn_eq]
  split
  · exact consistent_settle (he.typed hn) (hcalm.evolves he) hothers
      (hself.trans hwrites.onCourse.watch_of_none) ht.target
  · obtain ⟨j, hj, hjc, -⟩ := watch_eq_some (hself.trans hwrites.onCourse.watch_of_none)
    have hsteps : j.stepping = i.stepping.next := congrArg Course.stepping hjc
    have hm : j.motion = i.motion := congrArg Course.motion hjc
    refine consistent_program (he.typed hn) (hcalm.evolves he) (by rw [he.config, hk]) hothers hj
      ht.target (fun hs => ?_) fun motion hmotion => hc.motion motion (hm.symm.trans hmotion)
    rw [hsteps] at hs ⊢
    rw [hm, ← hk]
    exact hc.next hs

theorem consistent_moved {motion : Motion} (hi : n.get? e m = some i)
    (hd : n.timers.deadline? (transitionTimer e m) = none)
    (hc : i.course.IsConsistent k d?) (hm : i.motion = some motion) :
    (((n.moved e m i motion).program follow e m i.target motion.interval 0
      i.source).publish e m).Consistent k := by
  have ht := hn e m i hi
  obtain ⟨n₁, hwrites, hR⟩ := visit_writes (v := i.present.shift motion.step) (s := i.source)
    (isAftermath_calms m) (fun _ n hn hc => calms_follow hn hc e _) hi
  rw [hd] at hwrites
  have hct : Course.Typed m { i.course with present := i.present.shift motion.step } :=
    ⟨by rw [Value.model_shift, ht.present], ht.target, ht.stepping, ht.motion⟩
  obtain ⟨hself, hothers⟩ := hwrites.consistentAt hn hcalm ho hct hR
  have he := evolves_moved hn hi motion
  obtain ⟨j, hj, hjc, -⟩ := watch_eq_some (hself.trans hwrites.onCourse.watch_of_none)
  have hmotion : j.motion = i.motion := congrArg Course.motion hjc
  refine consistent_program (he.typed hn) (hcalm.evolves he) (by rw [he.config, hk]) hothers hj
    ht.target (fun hs => ?_) fun motion h => hc.motion motion (hmotion.symm.trans h)
  have hsteps : j.stepping = i.stepping := congrArg Course.stepping hjc
  rw [hsteps] at hs
  -- A move has no steps.
  have hnone : i.motion = none := (hc.stepping hs).1
  rw [hm] at hnone
  cases hnone

theorem consistent_endDelay (hi : n.get? e m = some i) (hc : i.course.IsConsistent k d?) :
    (n.endDelay e m i).Consistent k := by
  have ht := hn e m i hi
  obtain ⟨n₁, hwrites, hR⟩ := endDelay_writes (isAftermath_calms m)
    (fun _ n hn hc => calms_follow hn hc e _) hi
  rw [← hk] at hwrites
  have hct : Course.Typed m { i.course with delay := 0 } :=
    ⟨ht.present, ht.target, ht.stepping, ht.motion⟩
  exact hwrites.consistent hn hcalm ho (hct.enter ht.target)
    (Course.isConsistent_enter (fun hs => hc.stepping hs) hc.motion) hR

/-- Whatever the timer of an instance brings about, all is consistent afterwards. -/
theorem consistent_onTransition (hd : n.timers.deadline? (transitionTimer e m) = none)
    (hc : ∀ i, n.get? e m = some i → ∃ d, i.course.IsConsistent k (some d)) :
    (n.onTransition e m).Consistent k := by
  have h := n.onward e m
  generalize n.onTransition e m = n' at h ⊢
  cases h with
  | absent hi _ => exact consistent_of_others (consistentAt_of_get? hi) ho
  | idle hi hidle _ =>
    -- A timer that fires was armed for a busy instance.
    obtain ⟨d, hc⟩ := hc _ hi
    exact absurd (hc.armed.mp rfl) hidle
  | begin hi _ =>
    obtain ⟨d, hc⟩ := hc _ hi
    exact consistent_endDelay hn hcalm hk ho hi hc
  | arrive hi _ =>
    exact consistent_settle hn hcalm ho ((watch_of_get? hi).trans (by rw [hd])) (hn e m _ hi).target
  | move hi hm _ =>
    obtain ⟨d, hc⟩ := hc _ hi
    exact consistent_moved hn hcalm hk ho hi hd hc hm
  | step hi _ _ _ =>
    obtain ⟨d, hc⟩ := hc _ hi
    exact consistent_stepOn hn hcalm hk ho hi hd hc

end Timer

end Node

end MeshNode
