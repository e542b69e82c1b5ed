import MeshNode.Proofs.Transition.SettlingOnTime

/-! # New requests supersede old ones

The last request that an instance takes up in a step decides where it goes from then on, with one
exception. When a transition or a move brings up an interim value and the bindings that follow it
ask something of the instance itself, then the old change is taken up again after the new request.
-/

namespace MeshNode.Node

variable {n n' n'' : Node} {e : UInt8} {m : Model} {p : Trip} {i : Instance} {r : Request}
  {rest : List (Request × Option Motion)}

/-- The step from one node to the other fires the timer for the changes of an instance, and the
instance is overtaken in it. -/
def Overtakes (n n' : Node) (e : UInt8) (m : Model) : Prop :=
  ∃ horizon ts, n.timers.pop? horizon = some (transitionTimer e m, ts) ∧
    ({ n with timers := ts } : Node).Overtaken e m ∧
    n' = ({ n with timers := ts } : Node).onTransition e m

/-! ## Steps that overtake no instance -/

theorem attends_step (hs : Step (fun _ _ => True) n n')
    (ho : ¬ n.Overtakes n' e m) : n.Attends n' e m := by
  cases hs with
  | call x hx => exact attends_handle n x e m
  | @expiry horizon timer ts hpop =>
    have hq : ({ n with timers := ts } : Node).requestsFor e m = n.requestsFor e m := rfl
    refine Attends.of_requestsFor ?_ hq
    obtain ⟨e', m', rfl | rfl⟩ := timer_cases timer
    · rw [onTimer_transition]
      by_cases hx : (e, m) = (e', m')
      · obtain ⟨rfl, rfl⟩ := Prod.mk.injEq .. ▸ hx
        exact attends_onTransition fun ht => ho ⟨horizon, ts, hpop, ht, rfl⟩
      · exact (keepsToRequestsAt_onTransition hx).attends
    · exact (KeepsToRequests.refl _ e m).attends.of_requestsFor rfl
  | passage hpop => exact (KeepsToRequests.refl _ e m).attends.of_requestsFor rfl

theorem Travels.target (h : n.Travels e m p) (hpos : 0 < p.interval) :
    ∃ i, n.get? e m = some i ∧ i.target = p.request.value ∧ i.motion = none ∧
      i.remaining ≤ p.request.transition ∧
      (i.phase = .idle → i.present = p.request.value) := by
  obtain ⟨leg, edge, since, hleg, hcourse, -⟩ := h
  obtain ⟨i, hi, hic⟩ := hcourse.exists_get?
  have hphase := Trip.phase_of_course hleg hpos hic
  obtain ⟨hpresent, ht, hr, -, -, -, hm, -⟩ := Course.mk.injEq .. ▸ hic
  refine ⟨i, hi, ?_⟩
  rw [hphase]
  cases leg with
  | waiting => exact ⟨ht, hm, hr.le, nofun⟩
  | running k => exact ⟨ht, hm, hr.le.trans (Nat.sub_le ..), nofun⟩
  | arrived => exact ⟨ht, hm, hr.le.trans (Nat.zero_le _), fun _ => hpresent⟩

theorem Travels.deadline_le (h : n.Travels e m p) (hin : n.timers.WithinClock) {d : Nat}
    (hd : n.timers.deadline? (transitionTimer e m) = some d) : d ≤ p.arrival := by
  obtain ⟨leg, edge, since, hleg, hcourse, -, hexact⟩ := h
  have hdue : some d = (p.length? leg).map (since + ·) := hd.symm.trans (hcourse.exact hin)
  rw [hexact hin, ← Trip.deadline?_eq hleg] at hdue
  cases leg with
  | waiting =>
    obtain rfl := Option.some.inj hdue
    exact Nat.le_add_right ..
  | running k => exact Trip.deadline_le_arrival hdue.symm
  | arrived => cases hdue

/-! ## Steps that overtake an instance -/

/-- The time that the timer for the changes of an instance is armed for once an interim value has
been brought up. -/
def ahead (n : Node) (i : Instance) : Nat :=
  match i.motion with
  | some motion => motion.interval
  | none => i.remaining - n.config.stepInterval.toNat

theorem enter_target (c : Course) (w : Value) (t d : Nat) (s : Source) :
    (c.enter w t d s).target = w := by
  simp only [Course.enter]
  split
  · rfl
  · split
    · split <;> rfl
    · rfl

theorem enter_remaining (c : Course) (w : Value) (t d : Nat) (s : Source) (hd : d = 0) :
    (c.enter w t d s).remaining = t := by
  subst hd
  simp only [Course.enter, lt_irrefl, if_false]
  split
  · split <;> rfl
  next ht => exact (Nat.eq_zero_of_not_pos ht).symm

/-- An old change is taken up again: the instance heads for its target, for the time given, and
stays so, if there is any time at all. -/
def Reverts (n n' : Node) (e : UInt8) (m : Model) (target : Value) (left : Nat) : Prop :=
  ∃ n₁ : Node, n₁.requestsFor e m = n.requestsFor e m ∧
    (∃ j, n₁.get? e m = some j ∧ j.target = target ∧ j.remaining = left) ∧ n₁.KeepsToRequests n' ∧
    (0 < left → n'.watch e m = n₁.watch e m ∧
      (n'.timers.deadline? (transitionTimer e m)).isSome)

theorem program_reverts {w : Value} {t : Nat} {s : Source} (hi : n.get? e m = some i)
    (hw : w.isImmediate = false) :
    n.Reverts ((n.program follow e m w t 0 s).publish e m) e m w t := by
  rcases Nat.eq_zero_or_pos t with rfl | ht
  · obtain ⟨n₁, hwrites, hh⟩ := program_writes (w := w) (t := 0) (d := 0) (s := s)
      isAftermath_keepsToRequests (fun _ _ n => keepsToRequests_follow n e m w) hi
    obtain ⟨j, hj, hjc⟩ := hwrites.onCourse.exists_get?
    refine ⟨n₁, hwrites.requests, ⟨j, hj, ?_, ?_⟩, hh.tells (tells_publish _ e m), by simp⟩
    · exact (congrArg Course.target hjc).trans (enter_target ..)
    · exact (congrArg Course.remaining hjc).trans (enter_remaining _ _ _ _ _ rfl)
  · -- The value is not shown at once, so nothing follows it.
    have hquiet : w.isImmediate = true ∨ t = 0 → s.triggersBindings = true →
        ∀ n, Tells n (follow n e m w) := by simp [hw, ht.ne']
    obtain ⟨n₁, hwrites, hh⟩ := program_writes (d := 0) isAftermath_tells hquiet hi
    obtain ⟨j, hj, hjc⟩ := hwrites.onCourse.exists_get?
    have htells := hh.trans (tells_publish _ e m)
    refine ⟨n₁, hwrites.requests, ⟨j, hj, ?_, ?_⟩,
      (KeepsToRequests.refl n₁).tells htells, fun _ => ?_⟩
    · exact (congrArg Course.target hjc).trans (enter_target ..)
    · exact (congrArg Course.remaining hjc).trans (enter_remaining _ _ _ _ _ rfl)
    · have hsame := htells.watch e m
      refine ⟨hsame, ?_⟩
      change ((_ : Node).watch e m).2.isSome
      rw [hsame, hwrites.onCourse.armed]
      simp [Course.enterTime?, ht]

theorem settle_reverts {w : Value} {s : Source} (hi : n.get? e m = some i) :
    n.Reverts (n.settle follow e m w s) e m w 0 := by
  obtain ⟨n₁, hwrites, hh⟩ := settle_writes (w := w) (s := s) isAftermath_keepsToRequests
    (fun _ _ n => keepsToRequests_follow n e m w) hi
  obtain ⟨j, hj, hjc⟩ := hwrites.onCourse.exists_get?
  refine ⟨n₁, hwrites.requests, ⟨j, hj, ?_, ?_⟩, hh, by simp⟩
  · exact congrArg Course.target hjc
  · exact congrArg Course.remaining hjc

theorem interim?_travels {mid : Node} (hmid : n.interim? e m = some mid)
    (hne : mid.requestsFor e m ≠ n.requestsFor e m) :
    ∃ r rest origin, mid.requestsFor e m = (r, none) :: rest ∧
      mid.Travels e m (mid.trip r origin) := by
  obtain ⟨n₁, c, d, hw, hh⟩ := interim?_writes hmid
  obtain ⟨rs, hrs, hleft⟩ := (hh e m).requests
  cases rs with
  | nil => exact absurd (hrs.trans hw.requests) hne
  | cons r rs =>
    obtain ⟨origin, ht⟩ := hleft
    exact ⟨r, _, origin, hrs, ht⟩

/-- An instance that is overtaken returns to the change that it was in. -/
theorem reverts_onTransition {mid : Node} (hn : n.Typed) (hi : n.get? e m = some i)
    (hmid : n.interim? e m = some mid) (hne : mid.requestsFor e m ≠ n.requestsFor e m) :
    mid.Reverts (n.onTransition e m) e m i.target (n.ahead i) := by
  obtain ⟨r, rest, origin, -, ht⟩ := interim?_travels hmid hne
  obtain ⟨leg, edge, since, -, hcourse, -⟩ := ht
  obtain ⟨j, hj, -⟩ := hcourse.exists_get?
  have htyped := hn e m i hi
  have h := n.onward e m
  generalize n.onTransition e m = n' at h ⊢
  cases h with
  | absent _ hnone | idle _ _ hnone | begin _ hnone | arrive _ hnone =>
    cases hnone.symm.trans hmid
  | move hi' hm hsome =>
    obtain rfl := Option.some.inj (hi'.symm.trans hi)
    obtain rfl := Option.some.inj (hsome.symm.trans hmid)
    have himm := Value.not_isImmediate_of_model
      (.inl (htyped.target.trans (htyped.motion (by simp [hm]))))
    simp only [ahead, hm]
    exact program_reverts hj himm
  | step hi' hm ha hsome =>
    obtain rfl := Option.some.inj (hi'.symm.trans hi)
    obtain rfl := Option.some.inj (hsome.symm.trans hmid)
    have himm := Value.not_isImmediate_of_model (htyped.target ▸ htyped.stepping ha)
    simp only [ahead, hm, stepOn_eq]
    split
    next h0 =>
      rw [h0]
      exact settle_reverts hj
    next => exact program_reverts hj himm

/-! ## The last request decides -/

/-- From the step in which an instance takes up a request for the last time, it heads for the
requested value on the trip of that request and settles there, if the step does not overtake it. If
it does, the request has put the instance on its trip and the old change is taken up again. -/
theorem supersedes_unless_overtaken (hn : n.Arises) (hs : Step (fun _ _ => True) n n')
    (hr : n'.requestsFor e m = (r, none) :: rest)
    (hne : n'.requestsFor e m ≠ n.requestsFor e m) :
    (¬ n.Overtakes n' e m → ∃ origin, ∀ n'', Steps (Spares e m) n' n'' →
      n''.requestsFor e m = n'.requestsFor e m → n''.Travels e m (n'.trip r origin) ∧
        ∃ j, n''.get? e m = some j ∧ j.target = r.value ∧ j.motion = none ∧
          j.remaining ≤ r.transition ∧ (j.phase = .idle → j.present = r.value) ∧
          (n''.timers.WithinClock →
            (∀ d, n''.timers.deadline? (transitionTimer e m) = some d →
              d ≤ n'.now + 5 * r.delay + r.transition) ∧
            (n''.AtRest → n'.now + 5 * r.delay + r.transition ≤ n''.now → j.phase = .idle))) ∧
    (n.Overtakes n' e m → ∃ (i : Instance) (mid : Node) (r' : Request)
      (rest' : List (Request × Option Motion)) (origin : Value), n.get? e m = some i ∧
      mid.requestsFor e m = (r', none) :: rest' ∧ mid.requestsFor e m ≠ n.requestsFor e m ∧
      mid.Travels e m (mid.trip r' origin) ∧ mid.Reverts n' e m i.target (n.ahead i)) := by
  have hsound' : n'.Sound := hn.sound.step hs
  constructor
  · intro ho
    obtain ⟨origin, ht⟩ := (attends_step hs ho).travels hr hne
    refine ⟨origin, fun n'' hs' hr' => ?_⟩
    have ht' := travels_steps hsound' hs' hr' rfl ht
    obtain ⟨j, hj, htarget, hm, hrem, hidle⟩ := ht'.target hsound'.stepInterval_pos
    refine ⟨ht', j, hj, htarget, hm, hrem, hidle, fun hin => ⟨fun d => ht'.deadline_le hin, ?_⟩⟩
    intro hrest hle
    exact (ht'.settled hrest hin hsound'.stepInterval_pos hle hj).1
  -- After the bindings have followed the interim value the instance is on the trip of their
  -- request.
  · rintro ⟨horizon, ts, hpop, ⟨mid, hmid, hmne⟩, rfl⟩
    obtain ⟨r', rest', origin, hr', ht⟩ := interim?_travels hmid hmne
    have hi : ∃ i, n.get? e m = some i := by
      unfold interim? at hmid
      split at hmid
      · cases hmid
      next i hi => exact ⟨i, hi⟩
    obtain ⟨i, hi⟩ := hi
    exact ⟨i, mid, r', rest', origin, hi, hr', hmne, ht,
      reverts_onTransition (hn.sound.popped hpop).typed hi hmid hmne⟩

theorem supersedes_soloLevel :
    ∃ n n' j, n = soloLevel.run
        [.call (.request (.application 0 (.level 3000) 3000 0)), .advance 1500] ∧
      n' = (n.request (.application 0 (.level (-7)) 0 2)).1.run [.advance 10] ∧
      n'.get? 0 .level = some j ∧ j.target = .level (-7) ∧ j.phase = .idle := by
  obtain ⟨n, hn⟩ : ∃ n, n = soloLevel.run
    [.call (.request (.application 0 (.level 3000) 3000 0)), .advance 1500] := ⟨_, rfl⟩
  have hsteps : Steps (fun _ _ => True) soloLevel n :=
    hn ▸ run_steps (admits_of_forall (fun _ _ _ => trivial) _)
  have hsound : n.Sound := isBuilt_soloLevel.sound.steps hsteps
  have hqueue : n.timers.queue = [⟨transitionTimer 0 .level, 2000⟩] := by
    rw [hn]
    decide +kernel
  obtain ⟨r, hr⟩ : ∃ r : Request, r = .application 0 (.level (-7)) 0 2 := ⟨_, rfl⟩
  have hcall : Step (fun _ _ => True) n (n.request r).1 := .call (.request r) trivial
  have hnow : (n.request r).1.now = 1500 := by
    rw [hn, hr]
    decide +kernel
  -- No timer fires in the step: the next one is due later.
  have ho : ¬ n.Overtakes (n.request r).1 0 .level := by
    rintro ⟨horizon, ts, hpop, -, heq⟩
    rw [heq, (evolves_onTransition (hsound.popped hpop).typed 0 .level).now] at hnow
    obtain ⟨d, hq, -, hd, -⟩ := Timers.pop?_eq_some hpop
    rw [hqueue] at hq
    obtain rfl : 2000 = d := congrArg Alarm.deadline (List.cons.inj hq).1
    have hlate : 2000 ≤ ts.now := hd ▸ Nat.le_max_right ..
    exact absurd (hlate.trans hnow.le) (by decide)
  have htaken : (n.request r).1.requestsFor 0 .level =
      [(r, none), (.application 0 (.level 3000) 3000 0, none)] := by
    rw [hn, hr]
    decide +kernel
  have hnew : (n.request r).1.requestsFor 0 .level ≠ n.requestsFor 0 .level := by
    rw [hn, hr]
    decide +kernel
  obtain ⟨origin, hall⟩ := (supersedes_unless_overtaken ⟨soloLevel, isBuilt_soloLevel, hsteps⟩
    hcall htaken hnew).1 ho
  have hsound' : (n.request r).1.Sound := hsound.step hcall
  obtain ⟨-, j, hj, htarget, -, -, -, htimes⟩ := hall ((n.request r).1.run [.advance 10])
    (run_steps (admits_of_forall (by simp) _)) (by rw [hn, hr]; decide +kernel)
  obtain ⟨-, hidle⟩ := htimes (by rw [hn, hr]; decide +kernel)
  have hrest : n.AtRest := hn ▸ isBuilt_soloLevel.atRest.run isBuilt_soloLevel.sound _
  have hphase := hidle ((hrest.handle hsound (.request r)).run hsound' [.advance 10])
    (by rw [hn, hr]; decide +kernel)
  refine ⟨n, _, j, hn, ?_, hj, htarget.trans (by rw [hr]; rfl), hphase⟩
  rw [hr]

/-- A level that asks for level five whenever it changes is asked for it half-way to another one,
and heads for the other one all the same. -/
theorem overtaken_soloLevel :
    ∃ n, n = soloLevel.run
        [.call (.bind ⟨.level, .level, 0, 0⟩ (Rule.always (.level 5) 0 0 .binding)),
          .call (.request (.application 0 (.level 3000) 3000 0)), .advance 1000] ∧
      n.requestsFor 0 .level =
        [(.bound 0 (.level 5), none), (.application 0 (.level 3000) 3000 0, none)] ∧
      n.watch 0 .level =
        (some ⟨.level 5, .level 3000, 2000, 0, .application, .none, none, false⟩, some 3000) :=
  ⟨_, rfl, by decide +kernel, by decide +kernel⟩

end MeshNode.Node
