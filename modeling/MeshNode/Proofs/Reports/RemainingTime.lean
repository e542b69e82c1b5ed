import MeshNode.Proofs.Codec.WireDurations
import MeshNode.Proofs.Transition.SettlingOnTime

/-! # What reports say of the time left

Left to itself after a request, an instance reports what is left of the transition, rounded as it is
on the wire: the whole of it during the delay, nothing once it has settled, and an unknown time for
as long as it moves. Two readings one after the other therefore fall, except where the second is
the first one to be written in finer steps.
-/

namespace MeshNode

open TransitionTime (rounded Rises)

/-- The time left that a report gives: none if it is of a settled value. -/
def Report.timeLeft (r : Report) : ENat :=
  match r.remaining with
  | some t => t.duration
  | none => 0

namespace Node

variable {n n' : Node} {e : UInt8} {m : Model} {p : Trip} {i : Instance} {x : Call}
  {r : Request} {rest : List (Request × Option Motion)} {motion : Motion}

/-- The time left that an instance reports. -/
def reading? (n : Node) (e : UInt8) (m : Model) : Option ENat :=
  (n.report? e m).map Report.timeLeft

theorem reading?_of_idle (hi : n.get? e m = some i) (hidle : i.remaining = 0 ∧ i.delay = 0) :
    n.reading? e m = some 0 := by
  simp only [reading?, report?, hi, Option.map_some, if_pos hidle]
  rfl

theorem reading?_of_busy (hi : n.get? e m = some i) (hbusy : ¬ (i.remaining = 0 ∧ i.delay = 0)) :
    n.reading? e m = some (n.reportedTime e m i).duration := by
  simp only [reading?, report?, hi, Option.map_some, if_neg hbusy]
  rfl

theorem reading?_of_phase (hi : n.get? e m = some i) (hidle : i.phase = .idle) :
    n.reading? e m = some 0 := by
  have := Instance.phase_eq_idle_iff.mp hidle
  exact reading?_of_idle hi (by omega)

/-! ## On a trip -/

/-- What is left of the change of an instance that does not move, before it is rounded. -/
def leftAt (n : Node) (e : UInt8) (m : Model) : Nat :=
  match n.get? e m with
  | none => 0
  | some i =>
    if 0 < i.delay then i.remaining else if 0 < i.remaining then n.timeLeft e m i else 0

theorem reportedTime_of_still (hi : n.get? e m = some i) (hstill : i.isMoving = false)
    (hbusy : ¬ (i.remaining = 0 ∧ i.delay = 0)) :
    n.reportedTime e m i = .ofMillis (n.leftAt e m) := by
  simp only [Node.reportedTime, leftAt, hi, hstill, Bool.false_eq_true, if_false]
  by_cases hwait : 0 < i.delay
  · rw [if_pos hwait, if_pos hwait]
  · rw [if_neg hwait, if_neg hwait, if_pos (by omega)]

theorem reading?_of_still (hi : n.get? e m = some i) (hm : i.motion = none) :
    n.reading? e m = some (rounded (n.leftAt e m)) := by
  have hstill : i.isMoving = false := by simp [Instance.isMoving, hm]
  by_cases hidle : i.remaining = 0 ∧ i.delay = 0
  · rw [reading?_of_idle hi hidle]
    simp only [leftAt, hi, hidle.1, hidle.2, lt_irrefl, if_false]
    rfl
  · rw [reading?_of_busy hi hidle, reportedTime_of_still hi hstill hidle]
    rfl

theorem Travels.reading?_eq (h : n.Travels e m p) :
    n.reading? e m = some (rounded (n.leftAt e m)) := by
  obtain ⟨leg, edge, since, -, hcourse, -⟩ := h
  obtain ⟨i, hi, hic⟩ := hcourse.exists_get?
  refine reading?_of_still hi ?_
  have hm : i.motion = (p.course edge leg).motion := congrArg Course.motion hic
  cases leg <;> exact hm

theorem leftAt_le_of_watch (hw : n'.watch e m = n.watch e m) (hnow : n.now ≤ n'.now)
    (hconfig : n'.config = n.config) : n'.leftAt e m ≤ n.leftAt e m := by
  cases hi : n.get? e m with
  | none =>
    have hi' : n'.get? e m = none := by
      have hc := congrArg Prod.fst hw
      simpa [watch, hi] using hc
    simp only [leftAt, hi, hi', le_refl]
  | some i =>
    obtain ⟨j, hj, hjc, hd⟩ := watch_eq_some (hw.trans (watch_of_get? hi))
    obtain ⟨-, -, hr, hdelay, -, hs, -⟩ := Course.mk.injEq .. ▸ hjc
    have hlater : n.timers.now ≤ n'.timers.now := hnow
    simp only [leftAt, hi, hj, hdelay, hr, timeLeft, Timers.remaining?_eq, hd, hs, hconfig]
    cases n.timers.deadline? (transitionTimer e m) <;> simp only [Option.map_some, Option.map_none,
      Option.getD_some, Option.getD_none, le_refl]
    split_ifs <;> omega

section Leg

variable {leg : Trip.Leg} {edge : Bool}

/-- While a transition runs, what the timer has left comes on top of the legs that follow. -/
theorem timeLeft_eq {k : Nat} (hic : i.course = p.course edge (.running k))
    (hp : p.interval = n.config.stepInterval.toNat) :
    n.timeLeft e m i = ((n.timers.deadline? (transitionTimer e m)).map (· - n.now)).getD i.remaining
      + (p.course edge (p.next (.running k))).remaining := by
  obtain ⟨-, -, hr, -, -, hs, -⟩ := Course.mk.injEq .. ▸ hic
  have hnow : n.timers.now = n.now := rfl
  rw [timeLeft, Timers.remaining?_eq, hs, hr, hnow, ← hp, Trip.next]
  by_cases hk : k + 1 < p.stepping.steps
  · have hactive : Stepping.isActive ⟨p.stepping.steps - k, p.stepping.increment⟩ = true := by
      simp only [Stepping.isActive, decide_eq_true_eq]
      omega
    rw [if_pos hk, if_pos hk, if_pos hactive, Trip.course, Nat.add_mul, Nat.one_mul, Nat.sub_sub]
  · rw [if_neg hk, if_neg hk]
    rfl

theorem remaining_depart : (p.course edge p.depart).remaining = p.request.transition := by
  unfold Trip.depart
  split
  · simp [Trip.course]
  next ht => exact (Nat.eq_zero_of_not_pos ht).symm

theorem OnCourse.next_le_leftAt {d : Option Nat} (h : n.OnCourse e m (p.course edge leg) d)
    (hleg : p.Has leg) (hp : p.interval = n.config.stepInterval.toNat) (hpos : 0 < p.interval) :
    (p.course edge (p.next leg)).remaining ≤ n.leftAt e m := by
  obtain ⟨i, hi, hic⟩ := h.exists_get?
  obtain ⟨-, -, hr, hdelay, -⟩ := Course.mk.injEq .. ▸ hic
  simp only [leftAt, hi]
  cases leg with
  | waiting =>
    have hwait : 0 < i.delay := hdelay ▸ hleg
    rw [if_pos hwait, hr, Trip.next, remaining_depart]
  | running k =>
    have hgo : ¬ 0 < i.delay := by simp [hdelay]
    have hrun : 0 < i.remaining := hr ▸ Trip.remaining_running hleg hpos
    rw [if_neg hgo, if_pos hrun, timeLeft_eq hic hp]
    exact Nat.le_add_left ..
  | arrived => exact Nat.zero_le _

/-- When an instance begins a leg no more is left than the leg and those that follow last. -/
theorem BeginsLeg.leftAt_le (h : n.BeginsLeg e m p leg) (edge : Bool)
    (hp : p.interval = n.config.stepInterval.toNat) (hpos : 0 < p.interval) :
    n.leftAt e m ≤ (p.course edge leg).remaining := by
  obtain ⟨hleg, ⟨edge', hcourse⟩, -⟩ := h
  obtain ⟨i, hi, hic⟩ := hcourse.exists_get?
  obtain ⟨-, -, hr, hdelay, -⟩ := Course.mk.injEq .. ▸ hic
  simp only [leftAt, hi]
  cases leg with
  | waiting =>
    have hwait : 0 < i.delay := hdelay ▸ hleg
    rw [if_pos hwait, hr]
    exact Nat.le_refl _
  | running k =>
    have hgo : ¬ 0 < i.delay := by simp [hdelay]
    have hrun : 0 < i.remaining := hr ▸ Trip.remaining_running hleg hpos
    obtain ⟨d, hd⟩ := Option.isSome_iff_exists.mp hcourse.armed
    have hlate : d ≤ n.now +
        (if k + 1 < p.stepping.steps then p.interval else p.request.transition - k * p.interval) :=
      hcourse.early d _ hd rfl
    have hd : n.timers.deadline? (transitionTimer e m) = some d := hd
    rw [if_neg hgo, if_pos hrun, timeLeft_eq hic hp, hd, Trip.next]
    simp only [Option.map_some, Option.getD_some]
    split at hlate
    next hk =>
      have hsteps := Trip.steps_mul_le (k + 1) hk
      rw [if_pos hk]
      simp only [Trip.course, Nat.add_mul, Nat.one_mul] at hsteps ⊢
      omega
    next hk =>
      rw [if_neg hk]
      simp only [Trip.course]
      omega
  | arrived => simp [hr, hdelay, Trip.course]

end Leg

/-- An instance on a trip that takes up nothing has no more left after a step. -/
theorem leftAt_step (h : n.Sound) (hs : Step (Spares e m) n n')
    (hr : n'.requestsFor e m = n.requestsFor e m) (hp : p.interval = n.config.stepInterval.toNat)
    (ht : n.Travels e m p) : n'.leftAt e m ≤ n.leftAt e m := by
  have hconfig := (step_precedes h hs).config
  rcases step_spares hs hr with ⟨hw, hnow⟩ | ⟨horizon, ts, hpop, rfl⟩
  · exact leftAt_le_of_watch hw hnow hconfig
  · have hpos : 0 < p.interval := hp ▸ h.stepInterval_pos
    obtain ⟨leg, edge, since, hleg, hcourse, -, hexact⟩ := ht
    obtain ⟨n₁, hr₁, -, hbegins, hh⟩ := resumes_of_leg h hleg hcourse hexact hpop hp
      (not_overtaken_of_quiet hr)
    have hp₁ : p.interval = n₁.config.stepInterval.toNat := by rw [hp, ← hconfig, hh.config]
    calc _ ≤ n₁.leftAt e m := leftAt_le_of_watch ((hh e m).watch (hr.trans hr₁.symm)) hh.now.ge
          hh.config
      _ ≤ (p.course edge (p.next leg)).remaining := hbegins.leftAt_le edge hp₁ hpos
      _ ≤ n.leftAt e m := hcourse.next_le_leftAt hleg hp hpos

theorem leftAt_steps (h : n.Sound) (hs : Steps (Spares e m) n n')
    (hr : n'.requestsFor e m = n.requestsFor e m) (hp : p.interval = n.config.stepInterval.toNat)
    (ht : n.Travels e m p) : n'.leftAt e m ≤ n.leftAt e m := by
  induction hs with
  | refl => exact Nat.le_refl _
  | @tail n₁ n₂ hs hs' ih =>
    have hle := steps_precedes h hs
    have hr₁ := requestsFor_between hle (step_precedes (h.steps hs) hs') hr
    have hp₁ : p.interval = n₁.config.stepInterval.toNat := hp.trans (by rw [hle.config])
    exact (leftAt_step (h.steps hs) hs' (hr.trans hr₁.symm) hp₁
      (travels_steps h hs hr₁ hp ht)).trans (ih hr₁)

/-- Of two readings on a trip the later one is not more, unless it is the first to be written in
finer steps. -/
theorem Travels.falls (ht : n.Travels e m p) (h : n.Sound) (hs : Steps (Spares e m) n n')
    (hr : n'.requestsFor e m = n.requestsFor e m)
    (hp : p.interval = n.config.stepInterval.toNat) :
    ∃ a b, n.reading? e m = some a ∧ n'.reading? e m = some b ∧ (b ≤ a ∨ ∃ s, Rises a b s) := by
  refine ⟨_, _, ht.reading?_eq, (travels_steps h hs hr hp ht).reading?_eq, ?_⟩
  refine (TransitionTime.rounded_le (leftAt_steps h hs hr hp ht)).imp_right ?_
  rintro ⟨s, -, -, hs⟩
  exact ⟨s, hs⟩

/-! ## In a move -/

/-- A course in a move or after one. -/
def MovingOrSettled (c : Course) : Prop := c.motion.isSome ∨ ¬ (0 < c.delay ∨ 0 < c.remaining)

def MovesOrSettled (n : Node) (e : UInt8) (m : Model) : Prop :=
  ∃ c, (n.watch e m).1 = some c ∧ MovingOrSettled c

theorem movingOrSettled_finish (c : Course) (v : Value) : MovingOrSettled (c.finish v) :=
  .inr (by simp [Course.finish])

theorem movingOrSettled_enter {c : Course} {t d : Nat}
    (h : c.motion.isSome ∨ t = 0 ∧ d = 0) (v : Value)
    (s : Source) : MovingOrSettled (c.enter v t d s) := by
  rcases h with h | ⟨rfl, rfl⟩
  · simp only [Course.enter]
    split
    · exact .inl h
    · split
      · split <;> exact .inl h
      · exact movingOrSettled_finish _ v
  · exact movingOrSettled_finish _ v

theorem MovesOrSettled.congr (h : n.MovesOrSettled e m) (hw : n'.watch e m = n.watch e m) :
    n'.MovesOrSettled e m := by
  rwa [MovesOrSettled, hw]

theorem Writes.movesOrSettled {n₁ : Node} {new : List (Request × Option Motion)} {c : Course}
    {d : Option Nat} (hw : n.Writes n₁ e m new c d) (hh : n₁.KeepsToRequests n')
    (hr : n'.requestsFor e m = n₁.requestsFor e m) (hc : MovingOrSettled c) :
    n'.MovesOrSettled e m := by
  refine ⟨c, ?_, hc⟩
  rw [(hh e m).watch hr, hw.onCourse.course]

theorem movesOrSettled_onTransition (h : n.MovesOrSettled e m)
    (hr : (n.onTransition e m).requestsFor e m = n.requestsFor e m) :
    (n.onTransition e m).MovesOrSettled e m := by
  have honward := n.onward e m
  have hquiet := not_overtaken_of_quiet hr
  generalize n.onTransition e m = n' at honward hr ⊢
  obtain ⟨c, hc, hwander⟩ := h
  obtain ⟨i, hi, rfl⟩ := Option.map_eq_some_iff.mp hc
  cases honward with
  | absent hnone => exact absurd (hi.symm.trans hnone) (by simp)
  | idle => exact ⟨i.course, hc, hwander⟩
  | @begin j hj =>
    obtain rfl := Option.some.inj (hi.symm.trans hj)
    obtain ⟨n₁, hw, hh⟩ := endDelay_writes isAftermath_keepsToRequests
      (fun _ n => keepsToRequests_follow n e m _) hi
    refine hw.movesOrSettled hh (hr.trans hw.requests.symm) (movingOrSettled_enter ?_ ..)
    exact hwander.imp_right fun hidle => ⟨Nat.eq_zero_of_not_pos (not_or.mp hidle).2, rfl⟩
  | @arrive j hj =>
    obtain rfl := Option.some.inj (hi.symm.trans hj)
    obtain ⟨n₁, hw, hh⟩ := settle_writes isAftermath_keepsToRequests
      (fun _ _ n => keepsToRequests_follow n e m _) hi
    exact hw.movesOrSettled hh (hr.trans hw.requests.symm) (movingOrSettled_finish ..)
  | @move j motion hj hm hmid =>
    obtain rfl := Option.some.inj (hi.symm.trans hj)
    have hr₁ := quiet_of_not_overtaken hquiet hmid
    obtain ⟨n₁, hw, hh⟩ := visit_writes (v := i.present.shift motion.step) (s := i.source)
      isAftermath_keepsToRequests (fun _ n => keepsToRequests_follow n e m _) hi
    obtain ⟨j, hj, hjc⟩ := hw.onCourse.exists_get?_of_watch
      ((hh e m).watch (hr₁.trans hw.requests.symm))
    obtain ⟨n₂, hw₂, hh₂⟩ := program_writes (w := i.target) (t := motion.interval) (d := 0)
      (s := i.source) isAftermath_keepsToRequests (fun _ _ n => keepsToRequests_follow n e m _) hj
    refine hw₂.movesOrSettled (hh₂.tells (tells_publish _ e m)) (hr.trans (hr₁.symm.trans
      hw₂.requests.symm)) (movingOrSettled_enter (.inl ?_) ..)
    rw [hjc]
    exact Option.isSome_iff_exists.mpr ⟨motion, hm⟩
  | @step j hj hm ha hmid =>
    obtain rfl := Option.some.inj (hi.symm.trans hj)
    rcases hwander with hsome | hidle
    · exact absurd hsome (by simp [Instance.course, hm])
    · -- An instance that has settled shows no interim value.
      have hnone : n.interim? e m = none := by
        have hstop : i.remaining = 0 := Nat.eq_zero_of_not_pos (not_or.mp hidle).2
        simp [interim?, hi, hstop]
      cases hnone.symm.trans hmid

theorem movesOrSettled_step (hs : Step (Spares e m) n n')
    (hr : n'.requestsFor e m = n.requestsFor e m) (hroam : n.MovesOrSettled e m) :
    n'.MovesOrSettled e m := by
  rcases step_spares hs hr with ⟨hw, -⟩ | ⟨horizon, ts, -, rfl⟩
  · exact hroam.congr hw
  · exact movesOrSettled_onTransition (n := { n with timers := ts }) hroam hr

theorem movesOrSettled_steps (h : n.Sound) (hs : Steps (Spares e m) n n')
    (hr : n'.requestsFor e m = n.requestsFor e m) (hroam : n.MovesOrSettled e m) :
    n'.MovesOrSettled e m := by
  induction hs with
  | refl => exact hroam
  | @tail n₁ n₂ hs hs' ih =>
    have hr₁ := requestsFor_between (steps_precedes h hs) (step_precedes (h.steps hs) hs') hr
    exact movesOrSettled_step hs' (hr.trans hr₁.symm) (ih hr₁)

theorem idle_step (hs : Step (Spares e m) n n')
    (hr : n'.requestsFor e m = n.requestsFor e m) (hi : n.get? e m = some i)
    (hidle : i.phase = .idle) : ∃ j, n'.get? e m = some j ∧ j.phase = .idle := by
  rw [Instance.phase_eq_idle_iff] at hidle
  rcases step_spares hs hr with ⟨hw, -⟩ | ⟨horizon, ts, -, rfl⟩
  · obtain ⟨j, hj, hjc, -⟩ := watch_eq_some (hw.trans (watch_of_get? hi))
    obtain ⟨-, -, hr, hd, -⟩ := Course.mk.injEq .. ▸ hjc
    exact ⟨j, hj, Instance.phase_eq_idle_iff.mpr (by rwa [hr, hd])⟩
  · have hi' : ({ n with timers := ts } : Node).get? e m = some i := hi
    obtain ⟨hd, hr⟩ := not_or.mp hidle
    have hsame : ({ n with timers := ts } : Node).onTransition e m = { n with timers := ts } := by
      simp only [onTransition, hi', if_neg hd, if_neg hr]
    rw [hsame]
    exact ⟨i, hi', Instance.phase_eq_idle_iff.mpr hidle⟩

theorem idle_steps (h : n.Sound) (hs : Steps (Spares e m) n n')
    (hr : n'.requestsFor e m = n.requestsFor e m) (hi : n.get? e m = some i)
    (hidle : i.phase = .idle) : ∃ j, n'.get? e m = some j ∧ j.phase = .idle := by
  induction hs with
  | refl => exact ⟨i, hi, hidle⟩
  | @tail n₁ n₂ hs hs' ih =>
    have hr₁ := requestsFor_between (steps_precedes h hs) (step_precedes (h.steps hs) hs') hr
    obtain ⟨j, hj, hjidle⟩ := ih hr₁
    exact idle_step hs' (hr.trans hr₁.symm) hj hjidle

theorem reading?_isSome (hi : n.get? e m = some i) : (n.reading? e m).isSome := by
  simp [reading?, report?, hi]

/-- The time that a move takes is unknown until it is over. -/
theorem MovesOrSettled.falls (hroam : n.MovesOrSettled e m) (h : n.Sound)
    (hs : Steps (Spares e m) n n')
    (hr : n'.requestsFor e m = n.requestsFor e m) :
    ∃ a b, n.reading? e m = some a ∧ n'.reading? e m = some b ∧ b ≤ a := by
  obtain ⟨c', hc', -⟩ := movesOrSettled_steps h hs hr hroam
  obtain ⟨j, hj, -⟩ := Option.map_eq_some_iff.mp hc'
  obtain ⟨b, hb⟩ := Option.isSome_iff_exists.mp (reading?_isSome hj)
  obtain ⟨c, hc, hwander⟩ := hroam
  obtain ⟨i, hi, rfl⟩ := Option.map_eq_some_iff.mp hc
  by_cases hidle : i.phase = .idle
  · obtain ⟨j, hj, hjidle⟩ := idle_steps h hs hr hi hidle
    exact ⟨0, 0, reading?_of_phase hi hidle, reading?_of_phase hj hjidle, le_rfl⟩
  · have hmoving : i.isMoving = true :=
      hwander.resolve_right fun hdone => hidle (Instance.phase_eq_idle_iff.mpr hdone)
    have hbusy := hidle
    rw [Instance.phase_eq_idle_iff, not_not] at hbusy
    have ha := reading?_of_busy (n := n) hi (by omega)
    rw [reportedTime, if_pos hmoving] at ha
    exact ⟨⊤, b, ha, hb, le_top⟩

/-! ## Taking up a move -/

/-- An instance whose last request was a move took up nothing while all else was heeded. -/
theorem KeepsToRequestsAt.requestsFor_of_move (h : n.KeepsToRequestsAt n' e m)
    (hr : n'.requestsFor e m = (r, some motion) :: rest) :
    n'.requestsFor e m = n.requestsFor e m := by
  obtain ⟨rs, hrs, -⟩ := h.requests
  cases rs with
  | nil => exact hrs
  | cons q rs =>
    rw [hr] at hrs
    cases congrArg Prod.snd (List.cons.inj hrs).1

theorem Moves.movesOrSettled {n₁ : Node} {e' : UInt8} (h : n.Moves e' n₁)
    (hh : n₁.KeepsToRequests n')
    (hr : n'.requestsFor e m = (r, some motion) :: rest)
    (hne : n'.requestsFor e m ≠ n.requestsFor e m) : n'.MovesOrSettled e m := by
  have hquiet := (hh e m).requestsFor_of_move hr
  by_cases hx : (e, m) = (e', .level)
  · obtain ⟨rfl, rfl⟩ := Prod.mk.injEq .. ▸ hx
    cases h with
    | stay => exact absurd hquiet hne
    | halt =>
      refine absurd hquiet fun hquiet => hne (hquiet.trans ?_)
      cases hi : n.get? e .level with
      | none =>
        have hi' : (n.cancel (transitionTimer e .level)).get? e .level = none := hi
        simp only [Node.halt, hi']
        rfl
      | some i =>
        obtain ⟨n₂, hw, hh'⟩ := halt_writes isAftermath_keepsToRequests hi
        exact (hquiet.symm.trans (((hh'.trans hh) e .level).requestsFor_of_move hr)).trans
          hw.requests
    | start bound t d k _ =>
      cases hi : n.get? e .level with
      | none =>
        simp only [Node.start, hi] at hquiet
        exact absurd hquiet hne
      | some i =>
        obtain ⟨n₂, hw, hh'⟩ := start_writes (v := .level bound) (t := t) (d := d) (s := .client)
          isAftermath_keepsToRequests (fun _ n w => keepsToRequests_follow n e .level w) (some k) hi
        exact hw.movesOrSettled (hh'.trans hh) (((hh'.trans hh) e .level).requestsFor_of_move hr)
          (movingOrSettled_enter (.inl rfl) ..)
  · exact absurd (((h.keepsToRequestsAt hx).trans (hh e m)).requestsFor_of_move hr) hne

theorem movesOrSettled_handle (hr : (n.handle x).requestsFor e m = (r, some motion) :: rest)
    (hne : (n.handle x).requestsFor e m ≠ n.requestsFor e m) : (n.handle x).MovesOrSettled e m := by
  rcases handle_cases n x with h | ⟨table, h, -⟩ | rfl | ⟨s, rfl⟩ | ⟨c, message, rfl⟩
  · exact absurd ((h.keepsToRequests e m).requestsFor_of_move hr) hne
  · rw [h] at hne
    exact absurd rfl hne
  · exact absurd rfl hne
  · rcases restore_cases n s with ⟨-, h⟩ | ⟨-, -, -, h⟩
    · rw [h] at hne
      exact absurd rfl hne
    · rw [h] at hne
      exact absurd rfl hne
  · have h := reception n c message
    change (n.receive c message).1.MovesOrSettled e m
    change (n.receive c message).1.requestsFor e m = _ at hr
    change (n.receive c message).1.requestsFor e m ≠ _ at hne
    generalize n.receive c message = res at h hr hne ⊢
    cases h with
    | absent | dropped | duplicate => exact absurd rfl hne
    | answered m' hm h => exact absurd (h.requestsFor e m) hne
    | stored hk hv ht hget h => exact absurd (h.requestsFor e m) hne
    | @taken i k n₀ n₁ n' ack hi hk hr' h₀ hlog h₁ h =>
      have hsame : (n₀.remember c message.model k ack).requestsFor e m = n.requestsFor e m :=
        requestsFor_of_log hlog e m
      rcases h₁ with rfl | ⟨-, hmoves⟩
      · exact absurd (((h.keepsToRequests e m).requestsFor_of_move hr).trans hsame) hne
      · exact hmoves.movesOrSettled h.keepsToRequests hr fun heq => hne (heq.trans hsame)

/-! ## Readings fall -/

/-- Once an instance has taken up a request and is left to itself, it never reports more time to be
left than before, except where the time left is the first to be written in finer steps: then a
reading of 60 of them can be followed by one of 61 or 62. -/
theorem reading_falls {ops ops' : List Operation} (hn : n.IsReached) (hn' : n' = n.handle x)
    (hne : n'.requestsFor e m ≠ n.requestsFor e m) (hops : n'.Admits (Spares e m) ops)
    (hops' : (n'.run ops).Admits (Spares e m) ops')
    (hr : ((n'.run ops).run ops').requestsFor e m = n'.requestsFor e m) :
    ∃ a b, (n'.run ops).reading? e m = some a ∧ ((n'.run ops).run ops').reading? e m = some b ∧
      (b ≤ a ∨ ∃ s, Rises a b s) := by
  have hsound : n'.Sound := hn' ▸ hn.sound.handle x
  have hsound₁ := hsound.run ops
  have hsteps := run_steps hops
  have hsteps' := run_steps hops'
  have hr₁ := requestsFor_between (run_precedes hsound ops) (run_precedes hsound₁ ops') hr
  have hr₂ := hr.trans hr₁.symm
  cases hhead : n'.requestsFor e m with
  | nil =>
    have hsuffix := requestsFor_suffix (handle_precedes hn.sound.typed x).log e m
    rw [← hn', hhead, List.suffix_nil] at hsuffix
    exact absurd (hhead.trans hsuffix.symm) hne
  | cons q rest =>
    obtain ⟨r, _ | motion⟩ := q
    · subst hn'
      obtain ⟨origin, ht⟩ := (attends_handle n x e m).travels hhead hne
      have ht₁ := travels_steps hsound hsteps hr₁ rfl ht
      refine ht₁.falls hsound₁ hsteps' hr₂ ?_
      rw [(run_precedes hsound ops).config]
      rfl
    -- The last request was a move, whose time stays unknown until it is over.
    · subst hn'
      have hroam := movesOrSettled_steps hsound hsteps hr₁ (movesOrSettled_handle hhead hne)
      obtain ⟨a, b, ha, hb, hle⟩ := hroam.falls hsound₁ hsteps' hr₂
      exact ⟨a, b, ha, hb, .inl hle⟩

theorem reading_falls_soloLevel :
    ∃ n n' b, n = (soloLevel.handle (.request (.application 0 (.level 3000) 7000 4))).run
        [.advance 10, .call (.query 0 .level)] ∧ n' = n.run [.advance 2500] ∧
      n.reading? 0 .level = some 7000 ∧ n'.reading? 0 .level = some b ∧ b ≤ 7000 := by
  have hspares (ops : List Operation) (h : ∀ x, .call x ∈ ops → x = .query 0 .level)
      (n : Node) : n.Admits (Spares 0 .level) ops :=
    admits_of_forall (fun n x hx => h x hx ▸ id) n
  obtain ⟨a, b, ha, hb, h⟩ := reading_falls (e := 0) (m := .level)
    ⟨soloLevel, [], isBuilt_soloLevel, rfl⟩
    (rfl : _ = soloLevel.handle (.request (.application 0 (.level 3000) 7000 4)))
    (takes_up_of_success (by decide +kernel))
    (hspares [.advance 10, .call (.query 0 .level)] (by simp) _)
    (hspares [.advance 2500] (by simp) _) (by decide +kernel)
  obtain rfl : a = 7000 := Option.some.inj (ha.symm.trans (by decide +kernel))
  refine ⟨_, _, b, rfl, rfl, ha, hb, ?_⟩
  rcases h with h | ⟨s, hs⟩
  · exact h
  · exact absurd hs.before (by cases s <;> decide)

/-- Of 6201 ms a level reports 6 s to be left, and one millisecond later 6.2 s. -/
theorem reading_rises_soloLevel :
    ∃ n n' : Node, n = soloLevel.run [.call (.request (.application 0 (.level 3000) 7000 0)),
        .advance 799] ∧ n' = n.run [.advance 1] ∧
      n'.requestsFor 0 .level = n.requestsFor 0 .level ∧
      n.reading? 0 .level = some 6000 ∧ n'.reading? 0 .level = some 6200 :=
  ⟨_, _, rfl, rfl, by decide +kernel, by decide +kernel, by decide +kernel⟩

end Node

end MeshNode
