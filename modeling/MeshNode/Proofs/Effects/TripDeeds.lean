import MeshNode.Proofs.Effects.Deeds
import MeshNode.Proofs.Transition.TimerProgress

/-! # What an instance does on a trip

A trip decides what an instance does from the time at which it takes up the request: on every leg it
has done just the deeds of the legs so far, in order. It publishes each value that it shows once,
and saves the last one.
-/

namespace MeshNode

namespace Trip

variable (p : Trip) (links : List Link)

def pending : List Deed := if 0 < p.request.delay then [.updated .delayed p.origin] else []

def underway : Nat → List Deed
  | 0 => .updated .transitioning (p.shown 0) ::
    ((if p.request.value.isImmediate then heralds links p.request.source p.request.value else []) ++
      p.pending)
  | k + 1 => .published :: .updated .transitioning (p.shown (k + 1)) ::
    (heralds links p.request.source (p.shown (k + 1)) ++ underway k)

/-- What an instance has done on a leg of a trip, latest first. -/
def trace : Leg → List Deed
  | .waiting => p.pending
  | .running k => p.underway links k
  | .arrived => .updated .idle p.request.value :: .saved :: .published ::
    if 0 < p.request.transition then
      (if p.request.value.isImmediate then []
        else heralds links p.request.source p.request.value) ++
        p.underway links (p.stepping.steps - 1)
    else heralds links p.request.source p.request.value ++ p.pending

variable {p links} {w : Value} {t d : Nat} {s : Source} {k : Nat}

theorem enterDeeds_depart :
    (⟨p.origin, w, t, d, s, p.stepping, none, false⟩ : Course).enterDeeds links p.request.value
      p.request.transition 0 p.request.source ++ p.pending = p.trace links p.depart := by
  by_cases ht : 0 < p.request.transition
  · simp [Course.enterDeeds, depart, trace, underway, shown, ht]
  · simp [Course.enterDeeds, Course.settleDeeds, depart, trace, ht]

theorem enterDeeds_first :
    (⟨p.origin, w, t, d, s, p.stepping, none, false⟩ : Course).enterDeeds links p.request.value
      p.request.transition p.request.delay p.request.source = p.trace links p.first := by
  by_cases hd : 0 < p.request.delay
  · simp [Course.enterDeeds, first, trace, pending, hd]
  · have hpending : p.pending = [] := if_neg hd
    rw [first, if_neg hd, Nat.eq_zero_of_not_pos hd]
    have h : _ = p.trace links p.depart := enterDeeds_depart (w := w) (t := t) (d := d) (s := s)
    rwa [hpending, List.append_nil] at h

theorem enterDeeds_step {edge : Bool} (h : k + 1 < p.stepping.steps) :
    (p.between edge k).enterDeeds links p.request.value
      (p.request.transition - k * p.interval - p.interval) 0 p.request.source =
        [.updated .transitioning (p.shown (k + 1))] := by
  have hi := not_isImmediate_of_steps h
  simp [Course.enterDeeds, between, remaining_pos h, hi]

section Immediate

variable (ht : p.request.transition = 0) (hd : p.request.delay = 0)
include ht hd

theorem first_of_immediate : p.first = .arrived := by simp [first, depart, ht, hd]

theorem trace_of_immediate (hs : p.request.source = .binding) : p.trace links .arrived =
    [.updated .idle p.request.value, .saved, .published] := by
  simp [trace, pending, heralds, ht, hd, hs, Source.triggersBindings]

end Immediate

theorem model_shown {m : Model} (ho : p.origin.model = m)
    (hv : p.request.value.model = m) (k : Nat) :
    (p.shown k).model = m := by
  rw [shown]
  split
  · exact hv
  · induction k with
    | zero => exact ho
    | succ k ih => rw [Function.iterate_succ_apply', Value.model_shift, ih]

theorem settleDeeds_last (h : p.Has (.running k)) (hk : ¬ k + 1 < p.stepping.steps) :
    (p.course (p.edge false (.running k)) (.running k)).settleDeeds links p.request.value
      p.request.source ++ p.underway links k = p.trace links .arrived := by
  obtain ⟨ht, hstep⟩ := h
  obtain rfl : k = p.stepping.steps - 1 := by omega
  rw [trace, if_pos ht]
  cases himm : p.request.value.isImmediate with
  | false => simp [Course.settleDeeds, course, Trip.edge, himm]
  | true =>
    -- The bindings followed the edge at the start, if they follow at all.
    cases hs : p.request.source.triggersBindings <;>
      simp [Course.settleDeeds, course, Trip.edge, himm, hs, heralds]

end Trip

namespace Node

variable {n n' n₁ : Node} {e : UInt8} {m : Model} {i : Instance} {p : Trip} {leg : Trip.Leg}
  {c : Course} {d? : Option Nat} {ds : List Deed} {v w : Value} {s : Source} {t d k : Nat}
  {F : Follow} {rest : List Chapter}

/-- An instance is on a leg of a trip and has done what belongs to it. -/
structure Conducts (n : Node) (e : UInt8) (m : Model) (p : Trip) (leg : Trip.Leg) : Prop where
  has : p.Has leg
  origin : 0 < p.request.transition → p.origin.model = m
  onCourse : ∃ edge d?, (leg ≠ .arrived → edge = p.edge false leg) ∧
    n.OnCourse e m (p.course edge leg) d? ∧ d?.isSome = (p.length? leg).isSome ∧
      (n.timers.WithinClock → d? = p.deadline? leg)
  since : n.timers.WithinClock → p.since leg ≤ n.now
  chapters : ∃ rest, n.chapters e m = ⟨p.request, none,
    (p.trace (n.linksOf e m) leg).filter (n.audience e m).notices⟩ :: rest

theorem Conducts.congr (h : n.Conducts e m p leg) (hw : n'.watch e m = n.watch e m)
    (ha : n'.audience e m = n.audience e m) (hc : n'.chapters e m = n.chapters e m)
    (hnow : n.now ≤ n'.now) (harmings : n.timers.armings <:+ n'.timers.armings) :
    n'.Conducts e m p leg where
  has := h.has
  origin := h.origin
  onCourse := by
    obtain ⟨edge, d?, hedge, hon, harmed, hexact⟩ := h.onCourse
    exact ⟨edge, d?, hedge, hon.congr hw harmings, harmed,
      fun hin => hexact (hin.of_suffix harmings)⟩
  since hin := (h.since (hin.of_suffix harmings)).trans hnow
  chapters := by
    have hlinks : n'.linksOf e m = n.linksOf e m := congrArg Audience.links ha
    rw [hc, ha, hlinks]
    exact h.chapters

/-! ## Setting out -/

/-- An instance takes up a request and sets out on its trip. -/
structure SetsOut (n n' : Node) (e : UInt8) (m : Model) (p : Trip) : Prop where
  audience : n'.audience e m = n.audience e m
  chapters : n'.chapters e m = ⟨p.request, none,
    (p.trace (n.linksOf e m) p.first).filter (n.audience e m).notices⟩ :: n.chapters e m
  conducts : n'.Conducts e m p p.first

/-- The steps of a trip are planned and nothing is left of an earlier one. -/
def planned (n : Node) (e : UInt8) (m : Model) (p : Trip) : Node :=
  n.modify e m fun i => { i with motion := none, stepping := p.stepping, edgeResolved := false }

theorem start_eq (hi : n.get? e m = some i)
    (hp : n.trip (admitted i ⟨e, m, v, t, d, s⟩) i.present = p) :
    n.start F e m v t d s none =
      ((n.planned e m p).note (.requested p.request none)).program F e m p.request.value
        p.request.transition p.request.delay p.request.source := by
  subst hp
  simp only [start, hi]
  rfl

theorem performs_planned (hi : n.get? e m = some i) (ho : p.origin = i.present)
    (hv : p.request.value.model = m) :
    n.Performs (n.planned e m p) e m
      ⟨p.origin, i.target, i.remaining, i.delay, i.source, p.stepping, none, false⟩
      (n.timers.deadline? (transitionTimer e m)) [] := by
  rw [ho]
  exact (Performs.refl (onCourse_of_get? hi)).modify
    (f := fun j => { j with motion := none, stepping := p.stepping, edgeResolved := false })
    (fun j hj => congrArg (fun c : Course => { c with
      motion := none, stepping := p.stepping, edgeResolved := false }) hj)
    (fun _ => rfl)
    (evolves_modify (fun _ => rfl) (fun _ => .inl rfl) fun j h =>
      ⟨h.present, h.target, fun ha => by
        rw [← hv]
        exact Value.model_of_position? (Stepping.position?_of_plan ha), by simp⟩)

theorem chapters_requested (hx : p.request.element = e ∧ p.request.model = m) :
    (n.note (.requested p.request none)).chapters e m =
      ⟨p.request, none, []⟩ :: n.chapters e m := by
  have hrequest : (Effect.requested p.request none).requestFor? e m = some (p.request, none) :=
    if_pos hx
  rw [chapters_note, Effect.record, hrequest]

/-- What is planned is carried out from the first leg on. -/
theorem setsOut_program (hi : n.get? e m = some i) (hp : p = n.trip p.request i.present)
    (hx : p.request.element = e ∧ p.request.model = m) (hv : p.request.value.model = m)
    (ho : 0 < p.request.transition → i.present.model = m)
    (hpass : Passes F n e m p.request.value p.request.source) :
    n.SetsOut (((n.planned e m p).note (.requested p.request none)).program F e m p.request.value
      p.request.transition p.request.delay p.request.source) e m p := by
  have horigin : p.origin = i.present := congrArg Trip.origin hp
  have hstart : p.start = n.now := congrArg Trip.start hp
  have hinterval : p.interval = n.config.stepInterval.toNat := congrArg Trip.interval hp
  have hset := performs_planned hi horigin hv
  generalize hn₁ : (n.planned e m p).note (.requested p.request none) = n₁
  have he : n.Evolves n₁ := hn₁ ▸ hset.evolves.trans (evolves_note _ _)
  have hdepth : n₁.depth = n.depth := hn₁ ▸ hset.depth
  have haudience : n₁.audience e m = n.audience e m := hn₁ ▸ hset.audience
  have hlinks : n₁.linksOf e m = n.linksOf e m := congrArg Audience.links haudience
  have hchapters : n₁.chapters e m = ⟨p.request, none, []⟩ :: n.chapters e m := by
    rw [← hn₁, chapters_requested hx, hset.chapters]
    exact congrArg _ (Chapter.push_nil _)
  obtain ⟨j, hj, hjc⟩ := hset.onCourse.exists_get?
  have hj : n₁.get? e m = some j := hn₁ ▸ hj
  have hprogram := performs_program (t := p.request.transition) (d := p.request.delay)
    (hpass.congr he hdepth) hj hv
  rw [hjc, Trip.enter_first, Trip.enterDeeds_first, he.config, he.now, hlinks, ← hinterval,
    p.enterTime_first] at hprogram
  have haudience' := hprogram.audience.trans haudience
  have htold := hprogram.chapters
  rw [hchapters, haudience, Chapter.push, List.append_nil] at htold
  refine ⟨haudience', htold, Trip.has_first, horigin ▸ ho,
    ⟨_, _, fun _ => rfl, hprogram.onCourse, Option.isSome_map, fun _ => ?_⟩, fun _ => ?_,
    n.chapters e m, ?_⟩
  · rw [p.deadline?_eq Trip.has_first, Trip.since_first, hstart]
  · rw [Trip.since_first, hstart, hprogram.evolves.now, he.now]
  · rw [htold, haudience', hprogram.linksOf.trans hlinks]

theorem setsOut_start (hi : n.get? e m = some i) (hv : v.model = m)
    (ho : 0 < t → i.present.model = m)
    (hpass : Passes F n e m (confine i v) s) :
    n.SetsOut (n.start F e m v t d s none) e m
      (n.trip (admitted i ⟨e, m, v, t, d, s⟩) i.present) := by
  rw [start_eq hi rfl]
  refine setsOut_program hi rfl ⟨rfl, rfl⟩ ((model_confine i v).trans hv) (fun hpos => ho ?_) hpass
  refine Nat.lt_of_lt_of_le hpos ?_
  change (if m.isTransitional then t else 0) ≤ t
  split
  · exact Nat.le_refl t
  · exact Nat.zero_le t

/-! ## Going on -/

theorem Performs.sendStatus (h : n.Performs n₁ e m c d? ds) (dst appKey : UInt16)
    (unicast : Bool) : n.Performs (n₁.sendStatus e m dst appKey unicast) e m c d? ds := by
  unfold Node.sendStatus handOver
  split
  · split
    · refine ⟨h.evolves.trans (evolves_note n₁ _), h.depth,
        h.onCourse.withCourse h.onCourse.course rfl, h.audience, ?_⟩
      rw [chapters_note_of_none rfl rfl, h.chapters]
    · exact h
  · exact h

theorem performs_endDelay (hi : n.get? e m = some i) (ht : i.target.model = m)
    (hpass : Passes follow n e m i.target i.source) :
    n.Performs (n.endDelay e m i) e m
      (Course.enter { i.course with delay := 0 } i.target i.remaining 0 i.source)
      ((Course.enterTime? { i.course with delay := 0 } n.config.stepInterval.toNat
        i.remaining 0).map (n.now + ·))
      (Course.enterDeeds (n.linksOf e m) { i.course with delay := 0 } i.target i.remaining 0
        i.source) := by
  have hset := (Performs.refl (onCourse_of_get? hi)).modify
    (f := fun i => { i with delay := 0, pendingReply := none })
    (fun j hj => congrArg (fun c : Course => { c with delay := 0 }) hj) (fun _ => rfl)
    (evolves_modify (fun _ => rfl) (fun _ => .inr rfl) fun _ h =>
      ⟨h.present, h.target, h.stepping, h.motion⟩)
  obtain ⟨j, hj, hjc⟩ := hset.onCourse.exists_get?
  have hprogram := hset.trans (performs_program (t := i.remaining) (d := 0)
    (hpass.congr hset.evolves hset.depth) hj ht)
  rw [hjc, hset.linksOf, List.append_nil] at hprogram
  unfold endDelay
  dsimp only
  split
  · exact hprogram.sendStatus _ _ _
  · exact hprogram

theorem performs_stepped (hi : n.get? e m = some i) (ho : i.present.model = m)
    (hpass : Passes follow n e m (i.present.shift i.stepping.increment) i.source) :
    n.Performs (n.stepped e m i) e m i.course.stepped (n.timers.deadline? (transitionTimer e m))
      (heralds (n.linksOf e m) i.source (i.present.shift i.stepping.increment)) := by
  have hstep := (Performs.refl (onCourse_of_get? hi)).modify
    (f := fun i => { i with stepping := i.stepping.next })
    (fun j hj => congrArg (fun c : Course => { c with stepping := c.stepping.next }) hj)
    (fun _ => rfl)
    (evolves_modify (fun _ => rfl) (fun _ => .inl rfl) fun _ h =>
      ⟨h.present, h.target, fun hs => h.stepping (Stepping.isActive_of_next hs), h.motion⟩)
  have hmodel : (i.present.shift i.stepping.increment).model = m := by rw [Value.model_shift, ho]
  have hshown := hstep.modify (f := fun j => j.display (i.present.shift i.stepping.increment)
      i.source n.now)
    (fun j hj => congrArg (fun c : Course => { c with
      present := i.present.shift i.stepping.increment }) hj)
    (fun _ => rfl) (evolves_display (s := i.source) hmodel)
  have hpassed := hshown.passOn hpass
  rwa [List.append_nil] at hpassed

/-- The timer that ends a leg of a trip has just gone off. -/
structure Due (n : Node) (e : UInt8) (m : Model) (p : Trip) (leg : Trip.Leg)
    (rest : List Chapter) : Prop where
  has : p.Has leg
  origin : 0 < p.request.transition → p.origin.model = m
  target : p.request.value.model = m
  watch : n.watch e m = (some (p.course (p.edge false leg) leg), none)
  lasts : (p.length? leg).isSome
  deadline : n.timers.WithinClock → p.deadline? leg = some n.now
  interval : p.interval = n.config.stepInterval.toNat
  pos : 0 < p.interval
  chapters : n.chapters e m = ⟨p.request, none,
    (p.trace (n.linksOf e m) leg).filter (n.audience e m).notices⟩ :: rest
  passes : ∀ w, Passes follow n e m w p.request.source

namespace Due

variable {leg' : Trip.Leg}

theorem off (h : n.Due e m p leg rest) : n.timers.deadline? (transitionTimer e m) = none :=
  congrArg Prod.snd h.watch

/-- What is done then belongs to the leg that comes next. -/
theorem conducts (h : n.Due e m p leg rest)
    (hp : n.Performs n' e m (p.course (p.edge false leg') leg')
      ((p.length? leg').map (n.now + ·)) ds)
    (hhas : p.Has leg') (hs : n.timers.WithinClock → p.since leg' = n.now)
    (hds : ds ++ p.trace (n.linksOf e m) leg = p.trace (n.linksOf e m) leg') :
    n'.audience e m = n.audience e m ∧ n'.Conducts e m p leg' := by
  have hsince (hin : n'.timers.WithinClock) := hs (hin.of_suffix hp.evolves.armings)
  refine ⟨hp.audience, hhas, h.origin,
    ⟨_, _, fun _ => rfl, hp.onCourse, Option.isSome_map, fun hin => ?_⟩,
    fun hin => (hsince hin).le.trans hp.evolves.now.ge, rest, ?_⟩
  · rw [p.deadline?_eq hhas, hsince hin]
  rw [hp.chapters, h.chapters, hp.linksOf, hp.audience, Chapter.push, ← hds, List.filter_append]

theorem endDelay (h : n.Due e m p .waiting rest) (hi : n.get? e m = some i)
    (hic : i.course = p.course (p.edge false .waiting) .waiting) :
    (n.endDelay e m i).audience e m = n.audience e m ∧
      (n.endDelay e m i).Conducts e m p p.depart := by
  obtain ⟨-, ht, hr, -, hs, -⟩ := Course.mk.injEq .. ▸ hic
  have hperforms := performs_endDelay hi (by rw [ht, h.target]) (by rw [ht, hs]; exact h.passes _)
  have hcourse : ({ i.course with delay := 0 } : Course) = ⟨p.origin, p.request.value,
      p.request.transition, 0, p.request.source, p.stepping, none, false⟩ := by
    rw [hic]
    rfl
  rw [hcourse, ht, hr, hs, ← h.interval, Trip.enter_depart, p.enterTime_depart] at hperforms
  refine h.conducts hperforms Trip.has_depart (fun hin => ?_) Trip.enterDeeds_depart
  exact Trip.since_depart.trans (Option.some.inj (h.deadline hin))

theorem stepOn (h : n.Due e m p (.running k) rest) (hk : k + 1 < p.stepping.steps)
    (hi : n.get? e m = some i)
    (hic : i.course = p.course (p.edge false (.running k)) (.running k)) :
    (n.stepOn e m i).audience e m = n.audience e m ∧
      (n.stepOn e m i).Conducts e m p (.running (k + 1)) := by
  obtain ⟨hpr, ht, hr, -, hs, hst, -⟩ := Course.mk.injEq .. ▸ hic
  have hnext : i.present.shift i.stepping.increment = p.shown (k + 1) := by
    rw [hpr, hst]
    exact Trip.shown_succ (Nat.lt_of_succ_lt hk)
  have hstepped := performs_stepped hi
    (by rw [hpr]; exact Trip.model_shown (h.origin h.has.1) h.target k)
    (by rw [hs]; exact h.passes _)
  rw [hnext, hic, hs, h.off, Trip.stepped_course hk] at hstepped
  obtain ⟨j, hj, hjc⟩ := hstepped.onCourse.exists_get?
  have hprogram := performs_program (F := follow) (w := p.request.value)
    (t := i.remaining - n.config.stepInterval.toNat) (d := 0) (s := p.request.source)
    ((h.passes _).congr hstepped.evolves hstepped.depth) hj h.target
  rw [hjc, hr, hstepped.evolves.config, hstepped.evolves.now, hstepped.linksOf, ← h.interval,
    Trip.enterTime_step hk, Trip.enter_step hk, Trip.enterDeeds_step hk] at hprogram
  have hremaining : i.remaining - n.config.stepInterval.toNat ≠ 0 := by
    rw [hr, ← h.interval]
    exact (Trip.remaining_pos hk).ne'
  rw [stepOn_eq, if_neg hremaining, hr, ht, hs, ← h.interval]
  refine h.conducts (hstepped.trans hprogram).publish ⟨h.has.1, .inr hk⟩ (fun hin => ?_) ?_
  · simpa [Trip.since, Trip.deadline?, hk] using h.deadline hin
  · simp [Trip.trace, Trip.underway]

theorem settle (h : n.Due e m p (.running k) rest) (hk : ¬ k + 1 < p.stepping.steps)
    (hi : n.get? e m = some i)
    (hic : i.course = p.course (p.edge false (.running k)) (.running k)) :
    (n.settle follow e m i.target i.source).audience e m = n.audience e m ∧
      (n.settle follow e m i.target i.source).Conducts e m p .arrived := by
  obtain ⟨-, ht, -, -, hs, -⟩ := Course.mk.injEq .. ▸ hic
  have hperforms := performs_settle (F := follow) (w := i.target) (s := i.source)
    (by rw [ht, hs]; exact h.passes _) hi (by rw [ht, h.target])
  rw [hic, ht, hs, Trip.finish_course, h.off] at hperforms
  rw [ht, hs]
  refine h.conducts hperforms trivial (fun hin => ?_) (Trip.settleDeeds_last h.has hk)
  simpa [Trip.since, Trip.deadline?, hk] using h.deadline hin

/-- When a leg of a trip ends the instance goes on to the next one. -/
theorem onTransition (h : n.Due e m p leg rest) :
    (n.onTransition e m).audience e m = n.audience e m ∧
      ∃ leg', (n.onTransition e m).Conducts e m p leg' := by
  obtain ⟨i, hi, hic, -⟩ := watch_eq_some h.watch
  obtain ⟨-, -, hr, hdelay, -, hst, hm, -⟩ := Course.mk.injEq .. ▸ hic
  simp only [Node.onTransition, hi]
  cases leg with
  | waiting =>
    have hwait : 0 < i.delay := hdelay ▸ h.has
    obtain ⟨ha, hc⟩ := h.endDelay hi hic
    rw [if_pos hwait]
    exact ⟨ha, _, hc⟩
  | running k =>
    have hwait : ¬ 0 < i.delay := by simp [hdelay]
    have hrun : 0 < i.remaining := hr ▸ Trip.remaining_running h.has h.pos
    have hm : i.motion = none := hm
    rw [if_neg hwait, if_pos hrun, hm]
    dsimp only
    by_cases hk : k + 1 < p.stepping.steps
    · have hactive : i.stepping.isActive = true := by
        rw [hst]
        simp only [Stepping.isActive, decide_eq_true_eq, if_pos hk]
        omega
      obtain ⟨ha, hc⟩ := h.stepOn hk hi hic
      rw [if_pos hactive]
      exact ⟨ha, _, hc⟩
    · have hactive : ¬ i.stepping.isActive = true := by
        rw [hst]
        simp [Stepping.isActive, hk]
      obtain ⟨ha, hc⟩ := h.settle hk hi hic
      rw [if_neg hactive]
      exact ⟨ha, _, hc⟩
  | arrived => cases h.lasts

end Due

end Node

end MeshNode
