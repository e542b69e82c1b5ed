import MeshNode.Proofs.Bindings.LampsInStep
import MeshNode.Proofs.Effects.UndisturbedTrips

/-! # Side effects happen once for each change

How often a request has an instance change its value follows from its transition and the length of
a step. An instance that is left to itself is published once for each change, each binding of its
state follows it once, and the value in which the changes end is saved once.
-/

namespace MeshNode

/-- How often a request has an instance change its value, with steps of some length. -/
def Request.writes (r : Request) (interval : Nat) : Nat :=
  if (r.model = .level ∨ r.model = .lightness) ∧ 2 ≤ r.transition / interval then
    r.transition / interval
  else 1

namespace Deed

def isUpdate (phase : Phase) : Deed → Bool
  | updated p _ => p = phase
  | _ => false

def following? : Deed → Option (Link × Value)
  | followed link value => some (link, value)
  | published | saved | updated .. => none

def followings (ds : List Deed) : List (Link × Value) := ds.reverse.filterMap following?

theorem followings_cons (y : Deed) (ds : List Deed) :
    followings (y :: ds) = followings ds ++ y.following?.toList := by
  rw [followings, List.reverse_cons, List.filterMap_append]
  cases y <;> rfl

theorem followings_append (ds ds' : List Deed) :
    followings (ds ++ ds') = followings ds' ++ followings ds := by
  rw [followings, List.reverse_append, List.filterMap_append]
  rfl

theorem followings_heralds (links : List Link) (s : Source) (v : Value) :
    followings (heralds links s v) = if s.triggersBindings then links.map (·, v) else [] := by
  rw [heralds]
  split
  · rw [followings, ← List.map_reverse, List.reverse_reverse, List.filterMap_map]
    exact congrFun (List.filterMap_eq_map (f := fun link : Link => (link, v))) links
  · rfl

theorem followings_filter (a : Audience) (ds : List Deed) :
    followings (ds.filter a.notices) = followings ds := by
  rw [followings, ← List.filter_reverse, List.filterMap_filter]
  refine congrArg (List.filterMap · ds.reverse) (funext fun y => ?_)
  cases y with
  | followed => rfl
  | _ => exact ite_self none

end Deed

namespace Chapter

/-- What a request comes to that has an instance change its value a number of times. -/
structure Completes (c : Chapter) (a : Audience) (writes : Nat) : Prop where
  published : c.deeds.count .published = if a.isConnected then writes else 0
  saved : c.deeds.count .saved = if a.isSaved then 1 else 0
  delayed : c.deeds.countP (·.isUpdate .delayed) =
    if a.isHeard ∧ 0 < c.request.delay then 1 else 0
  transitioning : c.deeds.countP (·.isUpdate .transitioning) =
    if a.isHeard ∧ 0 < c.request.transition then writes else 0
  idle : c.deeds.countP (·.isUpdate .idle) = if a.isHeard then 1 else 0

end Chapter

theorem Value.exists_position? {v : Value} (h : v.model = .level ∨ v.model = .lightness) :
    ∃ x, v.position? = some x := by
  cases v <;> simp_all [model, position?]

namespace Trip

variable {p : Trip} {links : List Link} {a : Audience} {k : Nat} {leg : Leg}

/-! ## The values on the way -/

/-- The values that have been shown on the way with a number of steps behind, oldest first. -/
def interims (p : Trip) (k : Nat) : List Value :=
  (if p.request.value.isImmediate then [p.request.value] else []) ++
    (List.range k).map fun j => p.shown (j + 1)

/-- The values to which the instance has changed on a leg, oldest first. -/
def values (p : Trip) : Leg → List Value
  | .waiting => []
  | .running k => p.interims k
  | .arrived =>
    if 0 < p.request.transition then
      p.interims (p.stepping.steps - 1) ++
        if p.request.value.isImmediate then [] else [p.request.value]
    else [p.request.value]

theorem interims_succ (k : Nat) : p.interims (k + 1) = p.interims k ++ [p.shown (k + 1)] := by
  rw [interims, interims, List.range_succ, List.map_append, List.append_assoc]
  rfl

theorem steps_of_isImmediate (himm : p.request.value.isImmediate = true) :
    p.stepping.steps = 0 := by
  by_contra hne
  have hnot := not_isImmediate_of_steps (Nat.pos_of_ne_zero hne)
  rw [himm] at hnot
  cases hnot

/-- The value shown is the last one that the instance has changed to. -/
theorem present_course (h : p.Has leg) (edge : Bool) :
    (p.course edge leg).present = (p.values leg).getLast?.getD p.origin := by
  cases leg with
  | waiting => rfl
  | running k =>
    change p.shown k = (p.interims k).getLast?.getD p.origin
    cases k with
    | zero =>
      rw [shown, interims]
      split <;> rfl
    | succ k => simp [interims_succ]
  | arrived =>
    change p.request.value = (p.values .arrived).getLast?.getD p.origin
    rw [values]
    split
    · split
      next himm => simp [interims, steps_of_isImmediate himm, himm]
      next => simp
    · rfl

theorem steps_of_immediate (ht : ¬ 0 < p.request.transition) : p.stepping.steps = 0 := by
  rw [stepping_none_of_short (by simp [Nat.eq_zero_of_not_pos ht])]
  rfl

theorem values_of_immediate (h : p.Has leg) (himm : p.request.value.isImmediate = true)
    (hleg : leg ≠ .waiting) : p.values leg = [p.request.value] := by
  have hsteps := steps_of_isImmediate himm
  cases leg with
  | waiting => exact absurd rfl hleg
  | running k =>
    obtain rfl : k = 0 := h.2.resolve_right (by omega)
    simp [values, interims, himm]
  | arrived => simp [values, interims, himm, hsteps]

section Steps

variable (hp : 0 < p.interval)
  (ho : 0 < p.request.transition → p.origin.model = p.request.model)
  (hv : p.request.value.model = p.request.model)
include hp ho hv

theorem steps_eq : p.stepping.steps =
    if (p.request.model = .level ∨ p.request.model = .lightness) ∧
      2 ≤ p.request.transition / p.interval then p.request.transition / p.interval else 0 := by
  split
  next h =>
    obtain ⟨hm, h2⟩ := h
    have ht : 0 < p.request.transition := Nat.pos_of_ne_zero fun h0 => by simp [h0] at h2
    obtain ⟨x, hx⟩ := Value.exists_position? (ho ht ▸ hm)
    obtain ⟨y, hy⟩ := Value.exists_position? (hv ▸ hm)
    have hlong : ¬ (p.interval = 0 ∨ p.request.transition / p.interval < 2) := by omega
    simp only [stepping, Stepping.plan, hx, hy, if_neg hlong]
  next h =>
    rcases stepping_cases (p := p) with h0 | ⟨h2, hs, -⟩
    · rw [h0]
      rfl
    · have hactive : p.stepping.isActive = true := by
        rw [Stepping.isActive, decide_eq_true_eq]
        omega
      have hm := Value.model_of_position? (Stepping.position?_of_plan hactive)
      rw [hv] at hm
      exact absurd ⟨hm, hs ▸ h2⟩ h

theorem writes_eq : p.request.writes p.interval = p.stepping.steps - 1 + 1 := by
  rw [steps_eq hp ho hv, Request.writes]
  split <;> omega

theorem length_values : (p.values .arrived).length = p.request.writes p.interval := by
  rw [writes_eq hp ho hv, values]
  split
  next => by_cases himm : p.request.value.isImmediate = true <;> simp [interims, himm, Nat.add_comm]
  next ht =>
    rw [steps_of_immediate ht]
    rfl

end Steps

/-! ## What is done on the way -/

section Count

variable {P : Deed → Bool} (hP : ∀ link v, P (.followed link v) = false)
include hP

theorem countP_heralds (s : Source) (v : Value) : (heralds links s v).countP P = 0 := by
  rw [heralds]
  split
  · simp [List.countP_map, Function.comp_def, hP]
  · rfl

theorem countP_underway {b : Bool} (hb : ∀ v, P (.updated .transitioning v) = b) (k : Nat) :
    (p.underway links k).countP P =
      p.pending.countP P + k * (P .published).toNat + (k + 1) * b.toNat := by
  induction k with
  | zero =>
    have hedge : (if p.request.value.isImmediate then
        heralds links p.request.source p.request.value else []).countP P = 0 := by
      split
      · exact countP_heralds hP _ _
      · rfl
    rw [underway, List.countP_cons, List.countP_append, hedge, hb]
    cases b <;> simp
  | succ k ih =>
    rw [underway, List.countP_cons, List.countP_cons, List.countP_append, countP_heralds hP, ih, hb]
    cases b <;> cases P .published <;> simp <;> ring

omit hP in
theorem countP_pending : p.pending.countP P =
    if 0 < p.request.delay then (P (.updated .delayed p.origin)).toNat else 0 := by
  rw [pending]
  split
  · cases hd : P (.updated .delayed p.origin) <;> simp [hd]
  · rfl

theorem countP_trace {b : Bool} (hb : ∀ v, P (.updated .transitioning v) = b) :
    (p.trace links .arrived).countP P =
      p.pending.countP P + (p.stepping.steps - 1 + 1) * (P .published).toNat +
        (P .saved).toNat + (P (.updated .idle p.request.value)).toNat +
        if 0 < p.request.transition then (p.stepping.steps - 1 + 1) * b.toNat else 0 := by
  have hlast : (if p.request.value.isImmediate then [] else
      heralds links p.request.source p.request.value).countP P = 0 := by
    split
    · rfl
    · exact countP_heralds hP _ _
  rw [trace, List.countP_cons, List.countP_cons, List.countP_cons]
  split
  next =>
    rw [List.countP_append, hlast, countP_underway hP hb]
    cases P .published <;> cases P .saved <;> cases P (.updated .idle p.request.value) <;>
      simp <;> ring
  next ht =>
    rw [List.countP_append, countP_heralds hP, steps_of_immediate ht]
    cases P .published <;> cases P .saved <;> cases P (.updated .idle p.request.value) <;> simp

/-- What the outside notices of a trip, each thing told to its own audience. -/
theorem countP_noticed {b : Bool} (hb : ∀ v, P (.updated .transitioning v) = b) :
    ((p.trace links .arrived).filter a.notices).countP P =
      (if 0 < p.request.delay then (P (.updated .delayed p.origin) && a.isHeard).toNat else 0) +
        (p.stepping.steps - 1 + 1) * (P .published && a.isConnected).toNat +
        (P .saved && a.isSaved).toNat + (P (.updated .idle p.request.value) && a.isHeard).toNat +
        if 0 < p.request.transition then (p.stepping.steps - 1 + 1) * (b && a.isHeard).toNat
        else 0 := by
  rw [List.countP_filter, countP_trace (b := b && a.isHeard) (fun link v => ?_) fun v => ?_,
    countP_pending]
  · rfl
  · rw [hP, Bool.false_and]
  · rw [hb]
    rfl

end Count

theorem completes (hp : 0 < p.interval)
    (ho : 0 < p.request.transition → p.origin.model = p.request.model)
    (hv : p.request.value.model = p.request.model) (links : List Link) (a : Audience) :
    Chapter.Completes ⟨p.request, none, (p.trace links .arrived).filter a.notices⟩ a
      (p.request.writes p.interval) := by
  rw [writes_eq hp ho hv]
  constructor
  · rw [List.count, countP_noticed (b := false) (fun _ _ => rfl) fun _ => rfl]
    cases a.isConnected <;> simp [beq_eq_decide]
  · rw [List.count, countP_noticed (b := false) (fun _ _ => rfl) fun _ => rfl]
    cases a.isSaved <;> simp [beq_eq_decide]
  · rw [countP_noticed (b := false) (fun _ _ => rfl) fun _ => rfl]
    cases a.isHeard <;> simp [Deed.isUpdate]
  · rw [countP_noticed (b := true) (fun _ _ => rfl) fun _ => rfl]
    cases a.isHeard <;> simp [Deed.isUpdate]
  · rw [countP_noticed (b := false) (fun _ _ => rfl) fun _ => rfl]
    cases a.isHeard <;> simp [Deed.isUpdate]

theorem saved_notMem_trace (hleg : leg ≠ .arrived) : Deed.saved ∉ p.trace links leg := by
  have hpending : p.pending.count .saved = 0 := by
    rw [List.count, countP_pending]
    exact ite_self 0
  rw [← List.count_eq_zero]
  cases leg with
  | waiting => exact hpending
  | running k =>
    refine (countP_underway (b := false) (fun _ _ => rfl) (fun _ => rfl) k).trans ?_
    rw [← List.count, hpending]
    simp [beq_eq_decide]
  | arrived => exact absurd rfl hleg

theorem update_of_mem_pending {y : Deed} (hy : y ∈ p.pending) :
    ∃ phase v, y = .updated phase v := by
  rw [pending] at hy
  split at hy
  · exact ⟨_, _, List.mem_singleton.mp hy⟩
  · cases hy

theorem leg_of_lt {t : Nat} (hs : p.since leg ≤ t) (hlt : t < p.departure) : leg = .waiting := by
  cases leg with
  | waiting => rfl
  | running k => exact absurd hlt (Nat.not_lt.mpr ((Nat.le_add_right _ _).trans hs))
  | arrived => exact absurd hlt (Nat.not_lt.mpr ((Nat.le_add_right _ _).trans hs))

/-! ## What follows on the way -/

theorem followings_pending : Deed.followings p.pending = [] := by
  rw [pending]
  split <;> rfl

theorem followings_underway (k : Nat) : Deed.followings (p.underway links k) =
    if p.request.source.triggersBindings then (p.interims k).flatMap fun v => links.map (·, v)
    else [] := by
  induction k with
  | zero =>
    rw [underway, Deed.followings_cons, Deed.followings_append, followings_pending]
    by_cases himm : p.request.value.isImmediate = true
    · simp [himm, Deed.following?, Deed.followings_heralds, interims]
    · simp [himm, Deed.following?, Deed.followings, interims]
  | succ k ih =>
    rw [underway, Deed.followings_cons, Deed.followings_cons, Deed.followings_append, ih,
      Deed.followings_heralds, interims_succ]
    split <;> simp [Deed.following?]

theorem followings_trace (leg : Leg) : Deed.followings (p.trace links leg) =
    if p.request.source.triggersBindings then (p.values leg).flatMap fun v => links.map (·, v)
    else [] := by
  cases leg with
  | waiting =>
    rw [trace, followings_pending]
    exact (ite_self []).symm
  | running k => exact followings_underway k
  | arrived =>
    rw [trace, values, Deed.followings_cons, Deed.followings_cons, Deed.followings_cons]
    split
    · rw [Deed.followings_append, followings_underway]
      by_cases himm : p.request.value.isImmediate = true
      · simp [himm, Deed.following?, Deed.followings]
      · rw [if_neg himm, if_neg himm, Deed.followings_heralds]
        split <;> simp [Deed.following?]
    · simp [Deed.followings_append, followings_pending, Deed.followings_heralds, Deed.following?]

end Trip

namespace Node

variable {n n' n₀ n₁ : Node} {e : UInt8} {m : Model} {i : Instance} {r : Request}
  {rest : List (Request × Option Motion)} {leg : Trip.Leg}

/-! ## From a request to its end -/

theorem model_of_requestsFor {motion : Option Motion}
    (hr : n.requestsFor e m = (r, motion) :: rest) : r.model = m := by
  have hmem : (r, motion) ∈ n.requestsFor e m := hr ▸ List.mem_cons_self
  obtain ⟨x, -, hx⟩ := List.mem_filterMap.mp hmem
  cases x with
  | requested r' motion' =>
    rw [Effect.requestFor?] at hx
    split at hx
    next h =>
      obtain rfl : r' = r := congrArg Prod.fst (Option.some.inj hx)
      exact h.2
    next => cases hx
  | _ => cases hx

/-- Whatever asks a state with transitions for a value, from then on until the instance is disturbed
it does nothing but tell of itself before the delay is over, and each change of its value is
published once and followed by every binding once, if the source passes changes on. When it has
settled the last value has been saved, once. -/
theorem done_once_per_write (hm : m.isTransitional = true) (hn₀ : n₀.IsBuilt)
    (h₀ : Steps HelpersOnly n₀ n) (hs : Step HelpersOnly n n₁)
    (hr : n₁.requestsFor e m = (r, none) :: rest)
    (hne : n₁.requestsFor e m ≠ n.requestsFor e m) (h₁ : Steps (Leaves e m) n₁ n')
    (hr' : n'.requestsFor e m = n₁.requestsFor e m) (hi : n'.get? e m = some i) :
    ∃ (c : Chapter) (cs : List Chapter) (origin : Value) (values : List Value),
      n'.chapters e m = c :: cs ∧ c.request = r ∧ n'.audience e m = n.audience e m ∧
        (n'.timers.WithinClock → n'.now < n₁.now + 5 * r.delay →
          ∀ y ∈ c.deeds, ∃ phase v, y = .updated phase v) ∧
        (i.phase ≠ .idle → .saved ∉ c.deeds) ∧
        (i.phase = .idle →
          c.Completes (n.audience e m) (r.writes n.config.stepInterval.toNat) ∧
          values.length = r.writes n.config.stepInterval.toNat) ∧
        Deed.followings c.deeds = (if r.source.triggersBindings then
          values.flatMap fun v => (n.audience e m).links.map (·, v) else []) ∧
        i.present = values.getLast?.getD origin ∧
        (r.value = .onOff .on → i.phase ≠ .delayed → values = [r.value]) := by
  have hn := hn₀.sound.steps h₀
  have hn₁ := hn.step hs
  have hn' := hn₁.steps h₁
  obtain ⟨haudience, origin, leg₁, hc₁⟩ := conducts_of_step (hn₀.betweenOperations h₀) hm hs hr hne
  have helpersOnly : Steps HelpersOnly n₀ n₁ := h₀.tail hs
  obtain ⟨haudience', leg, hc⟩ := hc₁.steps hn₀ helpersOnly hm rfl h₁ hr'
  obtain ⟨cs, hcs⟩ := hc.chapters
  obtain ⟨edge, d?, -, hon, -⟩ := hc.onCourse
  obtain ⟨j, hj, hjc⟩ := hon.exists_get?
  obtain rfl := Option.some.inj (hi.symm.trans hj)
  have hall : n'.audience e m = n.audience e m := haudience'.trans haudience
  have hpos : 0 < (n₁.trip r origin).interval := hn₁.stepInterval_pos
  have hphase := Trip.phase_of_course hc.has hpos hjc
  have hmodel : r.model = m := model_of_requestsFor hr
  have hinterval : n₁.config.stepInterval = n.config.stepInterval :=
    congrArg Config.stepInterval (step_precedes hn hs).config
  -- All of the deeds are read off the trip of the request and the leg that the instance is on.
  refine ⟨_, cs, origin, (n₁.trip r origin).values leg, hcs, rfl, hall, ?_, ?_, ?_, ?_, ?_, ?_⟩
  · intro hin hlt y hy
    have hleg : leg = .waiting := Trip.leg_of_lt (hc.since hin) hlt
    subst hleg
    exact Trip.update_of_mem_pending (List.mem_filter.mp hy).1
  · intro hbusy hsaved
    refine Trip.saved_notMem_trace ?_ (List.mem_filter.mp hsaved).1
    rintro rfl
    exact hbusy hphase
  · intro hidle
    obtain rfl : leg = .arrived := by
      cases leg with
      | waiting | running => cases hidle.symm.trans hphase
      | arrived => rfl
    have ho (ht : 0 < r.transition) : origin.model = r.model := (hc.origin ht).trans hmodel.symm
    have hv : r.value.model = r.model := (hc.value hn'.typed).trans hmodel.symm
    rw [← hinterval, ← hall]
    exact ⟨Trip.completes hpos ho hv _ _, Trip.length_values hpos ho hv⟩
  · rw [Deed.followings_filter, Trip.followings_trace, ← hall]
    rfl
  · exact (congrArg Course.present hjc).trans (Trip.present_course hc.has edge)
  · intro hv hstarted
    refine Trip.values_of_immediate hc.has (congrArg Value.isImmediate hv) ?_
    rintro rfl
    exact hstarted hphase

/-- A lightness on its way in three steps, followed by a level. -/
theorem done_once_per_write_lamp :
    let n := lamp.run [.call (.bindLightnessToLevel 0 0), .call (.listen .lightness "app"),
      .call (.keepSaved 0 .lightness)]
    let r : Request := .application 0 (.lightness 60000) 3000 2
    let n' := (n.request r).1.run [.advance 4000]
    ∃ c cs, n'.chapters 0 .lightness = c :: cs ∧ c.request = r ∧
      c.Completes ⟨[⟨.lightnessActual, .level, 0, 0⟩], true, true, true⟩ 3 ∧
      (Deed.followings c.deeds).length = 3 := by
  intro n r n'
  have hops : ∀ link rule, Operation.call (.bind link rule) ∉ [.call (.bindLightnessToLevel 0 0),
      .call (.listen .lightness "app"), .call (.keepSaved 0 .lightness)] := by
    intro link rule
    simp
  have h₀ : Steps HelpersOnly lamp n := run_steps (admits_helpersOnly hops _)
  have hcall : Step HelpersOnly n (n.request r).1 := .call (.request r) nofun
  have h₁ : Steps (Leaves 0 .lightness) (n.request r).1 n' :=
    run_steps (admits_of_forall (by simp) _)
  have hhosts : n'.hosts 0 .lightness = true := by decide +kernel
  obtain ⟨i, hi⟩ := hosts_iff.mp hhosts
  have hphase : (n'.get? 0 .lightness).map Instance.phase = some .idle := by decide +kernel
  have haudience : n.audience 0 .lightness =
      ⟨[⟨.lightnessActual, .level, 0, 0⟩], true, true, true⟩ := by decide +kernel
  have hwrites : r.writes n.config.stepInterval.toNat = 3 := by decide +kernel
  have hbefore : n.requestsFor 0 .lightness = [] := by decide +kernel
  have htaken : (n.request r).1.requestsFor 0 .lightness = [(r, none)] := by decide +kernel
  have hlast : n'.requestsFor 0 .lightness = [(r, none)] := by decide +kernel
  rw [hi, Option.map_some, Option.some.injEq] at hphase
  obtain ⟨c, cs, origin, values, hc, hr, -, -, -, hdone, hfollowings, -⟩ := done_once_per_write rfl
    isBuilt_lamp h₀ hcall htaken (by simp [htaken, hbefore]) h₁ (hlast.trans htaken.symm) hi
  obtain ⟨hcompletes, hlength⟩ := hdone hphase
  rw [haudience, hwrites] at hcompletes
  refine ⟨c, cs, hc, hr, hcompletes, ?_⟩
  have htriggers : r.source.triggersBindings = true := rfl
  rw [hfollowings, if_pos htriggers, haudience]
  simpa [hwrites] using hlength

/-- At the end of the clock a lamp does not wait for the delay that it was asked for. -/
theorem done_early_lamp :
    let n := lamp.run [.advance lastMoment]
    let r : Request := .application 0 (.lightness 60000) 0 2
    let n' := (n.request r).1.run [.advance 0]
    Steps HelpersOnly lamp n ∧ Step HelpersOnly n (n.request r).1 ∧
      (n.request r).1.requestsFor 0 .lightness = [(r, none)] ∧
      Steps (Leaves 0 .lightness) (n.request r).1 n' ∧
      n'.requestsFor 0 .lightness = [(r, none)] ∧ n'.now < n.now + 5 * r.delay ∧
      (n'.chapters 0 .lightness).map (fun c => (c.request, decide (.published ∈ c.deeds))) =
        [(r, true)] := by
  intro n r n'
  exact ⟨run_steps (admits_helpersOnly (by simp) _), .call (.request r) nofun, by decide +kernel,
    run_steps (admits_of_forall (by simp) _), by decide +kernel, by decide +kernel,
    by decide +kernel⟩

end Node

end MeshNode
