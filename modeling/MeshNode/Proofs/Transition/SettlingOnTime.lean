import MeshNode.Proofs.Node.NewNodes
import MeshNode.Proofs.Transition.StepsOnTrips

/-! # Changes settle on time

An instance that takes up a request and is then left to itself waits for the delay of the request,
runs through its transition and settles, at the times that the request says, however the passing of
time is cut into steps.
-/

namespace MeshNode.Node

variable {n n' : Node} {e e' : UInt8} {m m' : Model} {p : Trip} {x : Call} {i : Instance}
  {r : Request}

/-- The call leaves the instance to itself, but for requests that bindings make. -/
def Spares (e : UInt8) (m : Model) (n : Node) (x : Call) : Prop := ¬ n.Touches e m x

/-! ## A step of a trip -/

theorem requestsFor_suffix (h : n.log <:+ n'.log) (e : UInt8) (m : Model) :
    n.requestsFor e m <:+ n'.requestsFor e m :=
  h.filterMap _

theorem requestsFor_between {n₁ : Node} (h : n.Precedes n₁) (h' : n₁.Precedes n')
    (hr : n'.requestsFor e m = n.requestsFor e m) : n₁.requestsFor e m = n.requestsFor e m := by
  have hsuffix := requestsFor_suffix h.log e m
  have hlen := (requestsFor_suffix h'.log e m).length_le
  rw [hr] at hlen
  exact (hsuffix.eq_of_length_le hlen).symm

/-- An instance that is spared and takes up nothing in a step is as it was, unless the timer for its
changes fires. -/
theorem step_spares (hs : Step (Spares e m) n n')
    (hr : n'.requestsFor e m = n.requestsFor e m) :
    n'.watch e m = n.watch e m ∧ n.now ≤ n'.now ∨
      ∃ horizon ts, n.timers.pop? horizon = some (transitionTimer e m, ts) ∧
        n' = ({ n with timers := ts } : Node).onTransition e m := by
  cases hs with
  | call x hx =>
    have hheeds := keepsToRequestsAt_handle hx
    exact .inl ⟨hheeds.watch hr, hheeds.now.ge⟩
  | @expiry horizon timer ts hpop =>
    have hnow : n.now ≤ ts.now := Timers.now_le_popped hpop
    obtain ⟨e', m', rfl | rfl⟩ := timer_cases timer
    · rw [onTimer_transition] at hr ⊢
      by_cases hx : (e, m) = (e', m')
      · obtain ⟨rfl, rfl⟩ := Prod.mk.injEq .. ▸ hx
        exact .inr ⟨horizon, ts, hpop, rfl⟩
      · have hheeds := keepsToRequestsAt_onTransition (n := { n with timers := ts }) hx
        refine .inl ⟨?_, hnow.trans hheeds.now.ge⟩
        rw [hheeds.watch hr]
        exact watch_popped hpop (transitionTimer_ne hx)
    · rw [onTimer_transaction]
      have hw := watch_popped (e := e) (m := m) hpop (transactionTimer_ne _ _ _ _).symm
      exact .inl ⟨(watch_expired _ e' m' e m).trans hw, hnow⟩
  | passage hpop => exact .inl ⟨rfl, Nat.le_max_left ..⟩

/-- When its timer fires, an instance on a trip that is not overtaken goes on to the next leg. -/
theorem resumes_of_leg {leg : Trip.Leg} {edge : Bool} {since horizon : Nat} {ts : Timers}
    (h : n.Sound) (hleg : p.Has leg)
    (hcourse : n.OnCourse e m (p.course edge leg) ((p.length? leg).map (since + ·)))
    (hexact : n.timers.WithinClock → since = p.since leg)
    (hpop : n.timers.pop? horizon = some (transitionTimer e m, ts))
    (hp : p.interval = n.config.stepInterval.toNat)
    (hq : ¬ ({ n with timers := ts } : Node).Overtaken e m) :
    ({ n with timers := ts } : Node).Resumes (({ n with timers := ts } : Node).onTransition e m)
      e m p (p.next leg) := by
  have hw : ({ n with timers := ts } : Node).watch e m = (some (p.course edge leg), none) :=
    Prod.ext hcourse.course (h.ordered.deadline?_popped_self hpop)
  obtain ⟨d, hd, -⟩ := Timers.deadline?_popped_le hpop
  have hlength : (p.length? leg).isSome := by
    rw [← Option.isSome_map, ← hcourse.armed, watch, hd]
    rfl
  refine resumes_onTransition hw hleg hlength hp (hp ▸ h.stepInterval_pos) (fun hin => ?_) hq
  have hin : n.timers.WithinClock := (popped_precedes hpop).withinClock hin
  have hdue : (n.watch e m).2 = some ts.now := h.ordered.deadline?_popped hin hpop
  rw [hcourse.exact hin, hexact hin, ← Trip.deadline?_eq hleg] at hdue
  exact hdue

theorem travels_step (h : n.Sound) (hs : Step (Spares e m) n n')
    (hr : n'.requestsFor e m = n.requestsFor e m) (hp : p.interval = n.config.stepInterval.toNat)
    (ht : n.Travels e m p) : n'.Travels e m p := by
  have harmings := (step_precedes h hs).armings
  rcases step_spares hs hr with ⟨hw, hnow⟩ | ⟨horizon, ts, hpop, rfl⟩
  · exact ht.congr hw hnow harmings
  · obtain ⟨leg, edge, since, hleg, hcourse, -, hexact⟩ := ht
    obtain ⟨n₁, hr₁, -, hout, hh⟩ := resumes_of_leg h hleg hcourse hexact hpop hp
      (not_overtaken_of_quiet hr)
    exact hout.travels.congr ((hh e m).watch (hr.trans hr₁.symm)) hh.now.ge hh.armings

theorem travels_steps (h : n.Sound) (hs : Steps (Spares e m) n n')
    (hr : n'.requestsFor e m = n.requestsFor e m) (hp : p.interval = n.config.stepInterval.toNat)
    (ht : n.Travels e m p) : n'.Travels e m p := by
  induction hs with
  | refl => exact ht
  | @tail n₁ n₂ hs hs' ih =>
    have hle := steps_precedes h hs
    have hr₁ := requestsFor_between hle (step_precedes (h.steps hs) hs') hr
    exact travels_step (h.steps hs) hs' (hr.trans hr₁.symm) (hp.trans (by rw [hle.config]))
      (ih hr₁)

/-! ## Where an instance on a trip is -/

/-- Between two operations an instance on a trip is on a leg of the part that the time says. -/
theorem Travels.leg (h : n.Travels e m p) (hr : n.AtRest) (hin : n.timers.WithinClock) :
    ∃ leg i, p.Has leg ∧ n.get? e m = some i ∧ (∃ edge, i.course = p.course edge leg) ∧
      n.timers.deadline? (transitionTimer e m) = p.deadline? leg ∧ p.During n.now leg := by
  obtain ⟨leg, edge, since, hleg, hcourse, hsince, hexact⟩ := h
  obtain ⟨i, hi, hic, hd⟩ := watch_eq_some (hcourse.watch_eq hin)
  rw [hexact hin] at hsince
  rw [hexact hin, ← Trip.deadline?_eq hleg] at hd
  refine ⟨leg, i, hleg, hi, ⟨edge, hic⟩, hd, Trip.during hsince ?_⟩
  intro d hd'
  exact hr hin _ (Timers.mem_of_deadline? (hd.trans hd'))

theorem Travels.delayed (h : n.Travels e m p) (hr : n.AtRest) (hin : n.timers.WithinClock)
    (hpos : 0 < p.interval)
    (hlt : n.now < p.departure) (hi : n.get? e m = some i) :
    i.phase = .delayed ∧ i.present = p.origin := by
  obtain ⟨leg, j, hleg, hj, ⟨edge, hjc⟩, -, hduring⟩ := h.leg hr hin
  obtain rfl := Option.some.inj (hj.symm.trans hi)
  have harrival : p.departure ≤ p.arrival := Nat.le_add_right ..
  cases leg with
  | waiting => exact ⟨Trip.phase_of_course hleg hpos hjc, congrArg Course.present hjc⟩
  | running k => exact absurd hlt (Nat.not_lt.mpr hduring.1)
  | arrived => exact absurd hlt (Nat.not_lt.mpr (harrival.trans hduring))

/-- Without interim steps the value on the way is the new one, if it is shown at once, or else the
old one. -/
theorem Travels.transitioning (h : n.Travels e m p) (hr : n.AtRest) (hin : n.timers.WithinClock)
    (hpos : 0 < p.interval)
    (hle : p.departure ≤ n.now) (hlt : n.now < p.arrival) (hi : n.get? e m = some i) :
    i.phase = .transitioning ∧ (p.stepping = .none →
      i.present = if p.request.value.isImmediate then p.request.value else p.origin) := by
  obtain ⟨leg, j, hleg, hj, ⟨edge, hjc⟩, -, hduring⟩ := h.leg hr hin
  obtain rfl := Option.some.inj (hj.symm.trans hi)
  cases leg with
  | waiting => exact absurd hduring (Nat.not_lt.mpr hle)
  | running k =>
    have hpresent : j.present = p.shown k := congrArg Course.present hjc
    refine ⟨Trip.phase_of_course hleg hpos hjc, fun hs => ?_⟩
    rw [hpresent, Trip.shown_of_stepping_none hleg hs]
  | arrived => exact absurd hlt (Nat.not_lt.mpr hduring)

theorem Travels.settled (h : n.Travels e m p) (hr : n.AtRest) (hin : n.timers.WithinClock)
    (hpos : 0 < p.interval)
    (hle : p.arrival ≤ n.now) (hi : n.get? e m = some i) :
    i.phase = .idle ∧ i.present = p.request.value ∧ i.target = p.request.value ∧
      n.timers.isArmed (transitionTimer e m) = false := by
  obtain ⟨leg, j, hleg, hj, ⟨edge, hjc⟩, hd, hduring⟩ := h.leg hr hin
  obtain rfl := Option.some.inj (hj.symm.trans hi)
  have harrival : p.departure ≤ p.arrival := Nat.le_add_right ..
  cases leg with
  | waiting => exact absurd hduring (Nat.not_lt.mpr (harrival.trans hle))
  | running k => exact absurd hduring.2 (Nat.not_lt.mpr hle)
  | arrived =>
    refine ⟨Trip.phase_of_course hleg hpos hjc, congrArg Course.present hjc,
      congrArg Course.target hjc, ?_⟩
    rw [Timers.isArmed_eq, hd]
    rfl

/-! ## From a request to its end -/

/-- A request that succeeds sends the instance on its trip before any binding is followed. -/
theorem request_travels (hi : n.get? r.element r.model = some i)
    (hs : (n.request r).2 = .success) :
    ∃ n₁ : Node,
      n₁.requestsFor r.element r.model = (admitted i r, none) :: n.requestsFor r.element r.model ∧
      n₁.Travels r.element r.model (n.trip (admitted i r) i.present) ∧
      n₁.KeepsToRequests (n.request r).1 := by
  have hcheck : n.check r.element r.model r.value = .success := hs
  obtain ⟨n₁, hw, hh⟩ := start_writes (v := r.value) (t := r.transition) (d := r.delay)
    (s := r.source) isAftermath_keepsToRequests
      (fun _ n w => keepsToRequests_follow n r.element r.model w) none hi
  refine ⟨n₁, hw.requests, travels_of_writes hw, ?_⟩
  simp only [request, carryOut, hcheck]
  exact hh

theorem takes_up_of_success (hs : (n.request r).2 = .success) :
    (n.request r).1.requestsFor r.element r.model ≠ n.requestsFor r.element r.model := by
  have hcheck : n.check r.element r.model r.value = .success := hs
  cases hi : n.get? r.element r.model with
  | none =>
    have habsent : n.hosts r.element r.model = false := by rw [hosts, hi]; rfl
    rw [check, habsent] at hcheck
    cases hcheck
  | some i =>
    obtain ⟨n₁, hr₁, -, hh⟩ := request_travels hi hs
    have hlen := (hh r.element r.model).suffix.length_le
    rw [hr₁, List.length_cons] at hlen
    intro heq
    rw [heq] at hlen
    omega

theorem requestsFor_of_one {n₁ n₂ : Node} {q : Request × Option Motion}
    (hr : n₁.requestsFor e m = q :: n.requestsFor e m)
    (hh : n₁.KeepsToRequests n₂) (hle : n₂.Precedes n')
    (hone : (n'.requestsFor e m).length = (n.requestsFor e m).length + 1) :
    n₂.requestsFor e m = n₁.requestsFor e m ∧ n'.requestsFor e m = n₂.requestsFor e m := by
  have hsuffix₁ := (hh e m).suffix
  have hsuffix := requestsFor_suffix hle.log e m
  have hlen₁ := hsuffix₁.length_le
  have hlen := hsuffix.length_le
  rw [hr, List.length_cons] at hlen₁
  refine ⟨(hsuffix₁.eq_of_length ?_).symm, (hsuffix.eq_of_length (by omega)).symm⟩
  rw [hr, List.length_cons]
  omega

theorem travels_run {ops : List Operation} (hn : n.IsReached)
    (hi : n.get? r.element r.model = some i) (hs : (n.request r).2 = .success)
    (hops : (n.request r).1.Admits (Spares r.element r.model) ops)
    (hone : (((n.request r).1.run ops).requestsFor r.element r.model).length =
      (n.requestsFor r.element r.model).length + 1) :
    ((n.request r).1.run ops).Travels r.element r.model (n.trip (admitted i r) i.present) := by
  obtain ⟨n₁, hr₁, ht₁, hh⟩ := request_travels hi hs
  have hsound : (n.request r).1.Sound := hn.sound.handle (.request r)
  have hsteps := run_steps hops
  obtain ⟨hquiet₁, hquiet⟩ := requestsFor_of_one hr₁ hh (steps_precedes hsound hsteps) hone
  have hconfig : (n.request r).1.config = n.config :=
    (handle_precedes hn.sound.typed (.request r)).config
  refine travels_steps hsound hsteps hquiet (by rw [hconfig]; rfl) ?_
  exact ht₁.congr ((hh _ _).watch hquiet₁) hh.now.ge hh.armings

theorem departure_admitted (hm : r.model.isTransitional = true) (i : Instance) (v : Value) :
    (n.trip (admitted i r) v).departure = n.now + 5 * r.delay := by
  have hd : (admitted i r).delay = r.delay := if_pos hm
  rw [← hd]
  rfl

theorem arrival_admitted (hm : r.model.isTransitional = true) (i : Instance) (v : Value) :
    (n.trip (admitted i r) v).arrival = n.now + (5 * r.delay + r.transition) := by
  have ht : (admitted i r).transition = r.transition := if_pos hm
  rw [Trip.arrival, departure_admitted hm, ← Nat.add_assoc, ← ht]
  rfl

/-- An instance of a model with transitions that is left to itself once a request of it succeeded
waits for the delay with the value that it had, then runs through the transition, and settles on
the requested value when both have passed. -/
theorem settles_on_time {ops : List Operation} {x : Nat} (hn : n.IsReached)
    (hm : r.model.isTransitional = true) (hi : n.get? r.element r.model = some i)
    (hs : (n.request r).2 = .success) (hn' : n' = (n.request r).1.run ops)
    (hops : (n.request r).1.Admits (Spares r.element r.model) ops)
    (hone : (n'.requestsFor r.element r.model).length =
      (n.requestsFor r.element r.model).length + 1)
    (hx : n'.now = n.now + x) (hin : n'.timers.WithinClock) :
    ∃ j, n'.get? r.element r.model = some j ∧
      (x < 5 * r.delay → j.phase = .delayed ∧ j.present = i.present) ∧
      (5 * r.delay ≤ x → x < 5 * r.delay + r.transition → j.phase = .transitioning ∧
        (r.value = .onOff .on → j.present = .onOff .on) ∧
        (r.value = .onOff .off ∨ (r.model = .level ∨ r.model = .lightness) ∧
          r.transition / n.config.stepInterval.toNat < 2 → j.present = i.present)) ∧
      (5 * r.delay + r.transition ≤ x → j.phase = .idle ∧ j.present = confine i r.value ∧
        j.target = confine i r.value ∧
        n'.timers.isArmed (transitionTimer r.element r.model) = false) := by
  subst hn'
  have ht := travels_run hn hi hs hops hone
  have hsound : (n.request r).1.Sound := hn.sound.handle (.request r)
  have hrest := (hn.atRest.handle hn.sound (.request r)).run hsound ops
  have hpos := hn.sound.stepInterval_pos
  have hdeparture := departure_admitted (n := n) hm i i.present
  have harrival := arrival_admitted (n := n) hm i i.present
  have hmodel : r.value.model = r.model := model_of_check hs rfl
  obtain ⟨-, j, -, hj, -⟩ := ht.leg hrest hin
  refine ⟨j, hj, ?_, ?_, ?_⟩
  · intro hlt
    exact ht.delayed hrest hin hpos (by omega) hj
  · intro hle hlt
    obtain ⟨hphase, hpresent⟩ := ht.transitioning hrest hin hpos (by omega) (by omega) hj
    -- Without steps the value on the way is the old one, or the new one if it is shown at once.
    have hvalue : (n.trip (admitted i r) i.present).request.value = confine i r.value := rfl
    refine ⟨hphase, ?_, ?_⟩
    · intro hon
      have hconfined : confine i r.value = .onOff .on := by rw [hon]; rfl
      rw [hpresent (Trip.stepping_none_of_onOff (hvalue.trans hconfined)), hvalue, hconfined]
      rfl
    · rintro (hoff | ⟨hnumber, hshort⟩)
      · have hconfined : confine i r.value = .onOff .off := by rw [hoff]; rfl
        rw [hpresent (Trip.stepping_none_of_onOff (hvalue.trans hconfined)), hvalue, hconfined]
        rfl
      · have hlength : (n.trip (admitted i r) i.present).request.transition = r.transition :=
          if_pos hm
        have himmediate : (confine i r.value).isImmediate = false :=
          Value.not_isImmediate_of_model (by rwa [model_confine, hmodel])
        rw [hpresent (Trip.stepping_none_of_short (by rwa [hlength])), hvalue, himmediate]
        rfl
  · intro hle
    exact ht.settled hrest hin hpos (by omega) hj

theorem settles_on_time_soloLevel :
    ∃ n' j, n' = (soloLevel.request (.application 0 (.level 3000) 3000 2)).1.run
        [.advance 10, .advance 2500, .call (.query 0 .level), .advance 500] ∧
      n'.now = 3010 ∧ n'.get? 0 .level = some j ∧ j.phase = .idle ∧ j.present = .level 3000 := by
  have hspares : ∀ (n : Node) (x : Call), Operation.call x ∈
      [.advance 10, .advance 2500, .call (.query 0 .level), .advance 500] →
        Spares 0 .level n x := by
    intro n x hx
    obtain rfl : x = .query 0 .level := by simpa using hx
    exact id
  obtain ⟨j, hj, -, -, hend⟩ := settles_on_time (x := 3010)
    ⟨soloLevel, [], isBuilt_soloLevel, rfl⟩ rfl rfl rfl
    (.refl ((soloLevel.request (.application 0 (.level 3000) 3000 2)).1.run _))
    (admits_of_forall hspares _) (by decide +kernel) (by decide +kernel) (by decide +kernel)
  obtain ⟨hphase, hpresent, -⟩ := hend (by decide)
  exact ⟨_, j, rfl, by decide +kernel, hj, hphase, hpresent⟩

/-- At the end of the clock a transition is over as soon as it has begun. -/
theorem settled_early_soloLevel :
    let n := soloLevel.run [.advance lastMoment]
    let r : Request := .application 0 (.level 3000) 1000 0
    let n' := (n.request r).1.run [.advance 0]
    n.IsReached ∧ (n.request r).2 = .success ∧
      (n.request r).1.Admits (Spares 0 .level) [.advance 0] ∧
      (n'.requestsFor 0 .level).length = (n.requestsFor 0 .level).length + 1 ∧ n'.now = n.now ∧
      (n'.get? 0 .level).map (fun i => (i.phase, i.present)) = some (.idle, .level 3000) := by
  intro n r n'
  exact ⟨⟨soloLevel, _, isBuilt_soloLevel, rfl⟩, by decide +kernel,
    admits_of_forall (by simp) _, by decide +kernel, by decide +kernel, by decide +kernel⟩

end MeshNode.Node
