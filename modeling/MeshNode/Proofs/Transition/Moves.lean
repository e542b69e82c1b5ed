import MeshNode.Proofs.Transition.StepPace
import MeshNode.Proofs.Transition.MoveSpeeds

/-! # Moves

A level that a client moves goes one step further after each interval, until it is at the end of its
range: there it settles. It always gets there, since every step leads at least one position on, and
for as long as it is on its way nobody is told how long that takes.
-/

namespace MeshNode

open Trip (Leg)

/-! ## The end of the range -/

namespace Level

variable {l speed : Level} {p q : Int}

def bound (speed : Level) : Level := if speed < 0 then -32768 else 32767

theorem clamp_of_le (h : p ≤ -32768) : clamp p = -32768 := by
  rw [clamp, max_eq_left ((min_le_left ..).trans h)]
  rfl

theorem clamp_of_ge (h : 32767 ≤ p) : clamp p = 32767 := by
  rw [clamp, min_eq_right h]
  rfl

/-- Steps that lead the way of a speed get to the end of the range. -/
theorem clamp_steps_eq_bound (l : Level) (hspeed : speed ≠ 0) (hq : q.sign = speed.toInt.sign) :
    clamp (l.toInt + (65535 : Nat) * q) = speed.bound := by
  have hlo := l.le_toInt
  have hhi := l.toInt_lt
  have hne : speed.toInt ≠ 0 := fun h => hspeed (Int16.toInt_inj.mp h)
  rcases lt_or_gt_of_ne hne with hneg | hpos
  · have hstep : q < 0 := Int.sign_eq_neg_one_iff_neg.mp
      (hq.trans (Int.sign_eq_neg_one_iff_neg.mpr hneg))
    rw [bound, if_pos (Int16.lt_iff_toInt_lt.mpr hneg)]
    exact clamp_of_le (by omega)
  · have hstep : 0 < q := Int.sign_eq_one_iff_pos.mp
      (hq.trans (Int.sign_eq_one_iff_pos.mpr hpos))
    have hup : ¬ speed < 0 := fun hlt => lt_asymm hpos (Int16.lt_iff_toInt_lt.mp hlt)
    rw [bound, if_neg hup]
    exact clamp_of_ge (by omega)

theorem exists_first_at_bound (l : Level) (hspeed : speed ≠ 0)
    (hq : q.sign = speed.toInt.sign) :
    ∃ K : Nat, (1 ≤ K ∧ K ≤ 65535) ∧ clamp (l.toInt + K * q) = speed.bound ∧
      ∀ k : Nat, 1 ≤ k → k < K → clamp (l.toInt + k * q) ≠ speed.bound := by
  have hsome : ∃ k : Nat, 1 ≤ k ∧ clamp (l.toInt + k * q) = speed.bound :=
    ⟨65535, by decide, clamp_steps_eq_bound l hspeed hq⟩
  have hfirst := Nat.find_spec hsome
  refine ⟨Nat.find hsome, ⟨hfirst.1, Nat.find_min' hsome ?_⟩, hfirst.2, fun k hk hlt heq => ?_⟩
  · exact ⟨by decide, clamp_steps_eq_bound l hspeed hq⟩
  · exact Nat.find_min hsome hlt ⟨hk, heq⟩

end Level

/-! ## Where a move is -/

/-- A move taken up at some time by an instance that showed some value, and the number of steps to
where it leads. -/
structure Cruise where
  request : Request
  motion : Motion
  start : Nat
  origin : Value
  steps : Nat
  waits : request.value.isImmediate = false
  transition_eq : request.transition = motion.interval
  interval_pos : 0 < motion.interval
  steps_pos : 0 < steps
  last : (·.shift motion.step)^[steps] origin = request.value
  before : ∀ k, 0 < k → k < steps → (·.shift motion.step)^[k] origin ≠ request.value

namespace Cruise

variable (p : Cruise)

def departure : Nat := p.start + TransitionTime.delayMs p.request.delay

/-- When the instance settles. -/
def arrival : Nat := p.departure + p.steps * p.motion.interval

def shown (k : Nat) : Value := (·.shift p.motion.step)^[k] p.origin

def Has : Leg → Prop
  | .waiting => 0 < p.request.delay
  | .running k => k < p.steps
  | .arrived => True

def course (edge : Bool) : Leg → Course
  | .waiting => ⟨p.origin, p.request.value, p.request.transition, p.request.delay,
      p.request.source, .none, some p.motion, edge⟩
  | .running k => ⟨p.shown k, p.request.value, p.motion.interval, 0, p.request.source, .none,
      some p.motion, edge⟩
  | .arrived => ⟨p.request.value, p.request.value, 0, 0, p.request.source, .none, none, edge⟩

def since : Leg → Nat
  | .waiting => p.start
  | .running k => p.departure + k * p.motion.interval
  | .arrived => p.arrival

def length? : Leg → Option Nat
  | .waiting => some (TransitionTime.delayMs p.request.delay)
  | .running _ => some p.motion.interval
  | .arrived => none

def deadline? : Leg → Option Nat
  | .waiting => some p.departure
  | .running k => some (p.departure + (k + 1) * p.motion.interval)
  | .arrived => none

def first : Leg := if 0 < p.request.delay then .waiting else .running 0

variable {p}

theorem deadline?_eq (leg : Leg) : p.deadline? leg = (p.length? leg).map (p.since leg + ·) := by
  cases leg with
  | waiting | arrived => rfl
  | running k => simp only [deadline?, length?, since, Option.map_some, Nat.succ_mul, Nat.add_assoc]

theorem shown_succ (k : Nat) : (p.shown k).shift p.motion.step = p.shown (k + 1) :=
  (Function.iterate_succ_apply' (·.shift p.motion.step) k p.origin).symm

theorem shown_succ_eq_iff {k : Nat} (hk : k < p.steps) :
    p.shown (k + 1) = p.request.value ↔ k + 1 = p.steps := by
  constructor
  · intro h
    by_contra hne
    exact p.before (k + 1) (by omega) (by omega) h
  · rintro h
    rw [h]
    exact p.last

theorem has_first : p.Has p.first := by
  unfold first
  split
  · assumption
  · exact p.steps_pos

theorem since_first : p.since p.first = p.start := by
  unfold first
  split
  next => rfl
  next hd =>
    simp [since, departure, TransitionTime.delayMs, Nat.eq_zero_of_not_pos hd]

section Enter

variable (c : Course)

theorem enter_running (h : c.stepping = .none) (hm : c.motion = some p.motion) {k : Nat}
    (hp : c.present = p.shown k) :
    c.enter p.request.value p.motion.interval 0 p.request.source =
      p.course c.edgeResolved (.running k) := by
  simp [Course.enter, p.interval_pos, p.waits, course, h, hm, hp]

theorem enterTime_running (h : c.stepping = .none) (interval : Nat) :
    c.enterTime? interval p.motion.interval 0 = some p.motion.interval := by
  simp [Course.enterTime?, p.interval_pos, h, Stepping.none, Stepping.isActive]

theorem enter_first (h : c.stepping = .none) (hm : c.motion = some p.motion)
    (hp : c.present = p.origin) :
    c.enter p.request.value p.request.transition p.request.delay p.request.source =
      p.course c.edgeResolved p.first := by
  by_cases hd : 0 < p.request.delay
  · simp [Course.enter, first, hd, course, h, hm, hp]
  · rw [first, if_neg hd, Nat.eq_zero_of_not_pos hd, p.transition_eq]
    exact enter_running c h hm hp

theorem enterTime_first (h : c.stepping = .none) (interval : Nat) :
    c.enterTime? interval p.request.transition p.request.delay = p.length? p.first := by
  by_cases hd : 0 < p.request.delay
  · simp [Course.enterTime?, first, hd, length?]
  · rw [first, if_neg hd, Nat.eq_zero_of_not_pos hd, p.transition_eq, enterTime_running c h]
    rfl

end Enter

theorem finish_course (edge : Bool) (leg : Leg) :
    (p.course edge leg).finish p.request.value = p.course false .arrived := by
  cases leg <;> rfl

theorem phase_of_course {i : Instance} {edge : Bool} {leg : Leg} (h : p.Has leg)
    (hic : i.course = p.course edge leg) : i.phase = leg.phase := by
  obtain ⟨-, -, hr, hd, -⟩ := Course.mk.injEq .. ▸ hic
  cases leg with
  | waiting =>
    have hwait : 0 < i.delay := hd ▸ h
    rw [Instance.phase, if_pos hwait]
    rfl
  | running k =>
    have hwait : ¬ 0 < i.delay := by simp [hd]
    have hrun : 0 < i.remaining := hr ▸ p.interval_pos
    rw [Instance.phase, if_neg hwait, if_pos hrun]
    rfl
  | arrived => simp [Instance.phase, hd, hr, Leg.phase]

theorem leg_of_time {leg : Leg} {t : Nat} (hs : p.since leg ≤ t)
    (hd : ∀ d, p.deadline? leg = some d → t < d) :
    (t < p.departure → leg = .waiting) ∧
      (∀ k < p.steps, p.departure + k * p.motion.interval ≤ t →
        t < p.departure + (k + 1) * p.motion.interval → leg = .running k) ∧
      (p.arrival ≤ t → p.Has leg → leg = .arrived) := by
  have harrival : p.departure ≤ p.arrival := Nat.le_add_right ..
  have hend {k : Nat} (hk : k < p.steps) :
      p.departure + (k + 1) * p.motion.interval ≤ p.arrival :=
    Nat.add_le_add_left (Nat.mul_le_mul_right _ hk) _
  cases leg with
  | waiting =>
    have hlt := hd _ rfl
    exact ⟨fun _ => rfl, fun k _ hle _ => absurd hlt (by omega),
      fun hle _ => absurd hlt (by omega)⟩
  | running j =>
    have hlt := hd _ rfl
    have hle : p.departure + j * p.motion.interval ≤ t := hs
    refine ⟨fun h => absurd h (by omega), fun k _ hle' hlt' => ?_, fun hle' hj => ?_⟩
    · -- Both numbers of steps are the number of intervals that fit since the departure.
      have hquot {k : Nat} (h : p.departure + k * p.motion.interval ≤ t)
          (h' : t < p.departure + (k + 1) * p.motion.interval) :
          (t - p.departure) / p.motion.interval = k :=
        Nat.div_eq_of_lt_le (by omega) (by omega)
      rw [← hquot hle hlt, ← hquot hle' hlt']
    · exact absurd (hend hj) (by omega)
  | arrived =>
    have hle : p.arrival ≤ t := hs
    refine ⟨fun h => absurd h (by omega), fun k hk _ hlt => absurd (hend hk) (by omega),
      fun _ _ => rfl⟩

end Cruise

namespace Node

variable {n n' n₁ : Node} {e : UInt8} {m : Model} {p : Cruise} {i : Instance} {leg : Leg}
  {edge : Bool} {k : Nat}

/-- An instance is on a move, on some leg of it since some time. Within the clock that is the time
at which the leg was to begin. -/
def Cruises (n : Node) (e : UInt8) (m : Model) (p : Cruise) : Prop :=
  ∃ leg edge since, p.Has leg ∧
    n.OnCourse e m (p.course edge leg) ((p.length? leg).map (since + ·)) ∧ since ≤ n.now ∧
    (n.timers.WithinClock → since = p.since leg)

theorem Cruises.congr (h : n.Cruises e m p) (hw : n'.watch e m = n.watch e m)
    (hnow : n.now ≤ n'.now) (ha : n.timers.armings <:+ n'.timers.armings) : n'.Cruises e m p := by
  obtain ⟨leg, edge, since, hleg, hcourse, hsince, hexact⟩ := h
  exact ⟨leg, edge, since, hleg, hcourse.congr hw ha, hsince.trans hnow,
    fun hin => hexact (hin.of_suffix ha)⟩

/-- The move that a speed and a time say. -/
def motion (n : Node) (speed : Level) (t : Nat) : Motion :=
  .ofSpeed speed.toInt t n.config.moveInterval.toNat

/-! ## From step to step -/

/-- The instance is put on its move before all else is heeded. -/
def ResumesMove (n n' : Node) (e : UInt8) (m : Model) (p : Cruise) : Prop :=
  ∃ n₁ : Node, n₁.requestsFor e m = n.requestsFor e m ∧ n₁.Cruises e m p ∧ n₁.KeepsToRequests n'

theorem Writes.resumesMove {c : Course} {d : Option Nat} (hw : n.Writes n₁ e m [] c d)
    (hh : n₁.KeepsToRequests n') (hleg : p.Has leg) (hc : c = p.course edge leg)
    (hd : d = (p.length? leg).map (n.now + ·))
    (hs : n.timers.WithinClock → n.now = p.since leg) : n.ResumesMove n' e m p := by
  subst hc hd
  exact ⟨n₁, hw.requests, ⟨leg, edge, n.now, hleg, hw.onCourse, hw.now.ge,
    fun hin => hs (hin.of_suffix hw.armings)⟩, hh⟩

theorem resumesMove_endDelay (hi : n.get? e m = some i) (hic : i.course = p.course edge .waiting)
    (hd : n.timers.WithinClock → n.now = p.departure) :
    n.ResumesMove (n.endDelay e m i) e m p := by
  obtain ⟨n₁, hw, hh⟩ := endDelay_writes isAftermath_keepsToRequests
    (fun _ n => keepsToRequests_follow n e m _) hi
  obtain ⟨hpresent, ht, hr, -, hs, hst, hm, -⟩ := Course.mk.injEq .. ▸ hic
  rw [ht, hr, hs, p.transition_eq, Cruise.enter_running (k := 0) _ hst hm hpresent,
    Cruise.enterTime_running _ hst] at hw
  have hleg : p.Has (.running 0) := p.steps_pos
  exact hw.resumesMove hh hleg rfl rfl fun hin => by simp [Cruise.since, hd hin]

theorem resumesMove_program (hi : n.get? e m = some i) (hic : i.course = p.course edge (.running k))
    (hd? : n.timers.deadline? (transitionTimer e m) = none) (hk : k + 1 < p.steps)
    (hd : n.timers.WithinClock → n.now = p.since (.running (k + 1)))
    (hquiet : (n.moved e m i p.motion).requestsFor e m = n.requestsFor e m) :
    n.ResumesMove (((n.moved e m i p.motion).program follow e m i.target p.motion.interval 0
      i.source).publish e m) e m p := by
  obtain ⟨hpresent, ht, -, -, hs, hst, hm, -⟩ := Course.mk.injEq .. ▸ hic
  obtain ⟨n₁, hw, hh⟩ := visit_writes (v := i.present.shift p.motion.step) (s := i.source)
    isAftermath_keepsToRequests (fun _ n => keepsToRequests_follow n e m _) hi
  have hsame : (n.moved e m i p.motion).watch e m = n₁.watch e m :=
    (hh e m).watch (hquiet.trans hw.requests.symm)
  rw [hd?] at hw
  obtain ⟨j, hj, hjc, -⟩ := watch_eq_some (hsame.trans hw.onCourse.watch_of_none)
  obtain ⟨hpresent', -, -, -, -, hst', hm', -⟩ := Course.mk.injEq .. ▸ hjc
  obtain ⟨n₂, hw₂, hh₂⟩ := program_writes (w := i.target) (t := p.motion.interval) (d := 0)
    (s := i.source) isAftermath_keepsToRequests (fun _ _ n => keepsToRequests_follow n e m _) hj
  have hnow : (n.moved e m i p.motion).now = n.now := hh.now.trans hw.now
  have harmings := hw.armings.trans hh.armings
  have hnext : j.present = p.shown (k + 1) := by
    rw [← Cruise.shown_succ]
    exact hpresent'.trans (congrArg (·.shift p.motion.step) hpresent)
  rw [ht, hs, Cruise.enter_running j.course (hst'.trans hst) (hm'.trans hm) hnext,
    Cruise.enterTime_running j.course (hst'.trans hst)] at hw₂
  rw [ht, hs] at hh₂ ⊢
  have hleg : p.Has (.running (k + 1)) := hk
  obtain ⟨n₃, hn₃, htr, hh₃⟩ := hw₂.resumesMove (hh₂.tells (tells_publish _ e m)) hleg rfl rfl
    fun hin => hnow.trans (hd (hin.of_suffix harmings))
  exact ⟨n₃, hn₃.trans hquiet, htr, hh₃⟩

theorem resumesMove_settle (hi : n.get? e m = some i) (hic : i.course = p.course edge leg)
    (hd? : n.timers.deadline? (transitionTimer e m) = none)
    (hd : n.timers.WithinClock → n.now = p.arrival) :
    n.ResumesMove (n.settle follow e m i.target i.source) e m p := by
  have ht : i.target = p.request.value := by
    have := congrArg Course.target hic
    cases leg <;> exact this
  obtain ⟨n₁, hw, hh⟩ := settle_writes (w := i.target) (s := i.source) isAftermath_keepsToRequests
    (fun _ _ n => keepsToRequests_follow n e m _) hi
  rw [ht, hic, Cruise.finish_course, hd?] at hw
  rw [ht] at hh ⊢
  have harrived : p.Has .arrived := trivial
  exact hw.resumesMove hh harrived rfl rfl hd

/-- When a leg of a move ends and the instance is not overtaken, it goes on to the next one. -/
theorem resumesMove_onTransition (hw : n.watch e m = (some (p.course edge leg), none))
    (hleg : p.Has leg) (hne : (p.length? leg).isSome)
    (hd : n.timers.WithinClock → p.deadline? leg = some n.now) (hq : ¬ n.Overtaken e m) :
    n.ResumesMove (n.onTransition e m) e m p := by
  obtain ⟨i, hi, hic, hd?⟩ := watch_eq_some hw
  obtain ⟨hpresent, ht, hr, hdelay, -, -, hm, -⟩ := Course.mk.injEq .. ▸ hic
  simp only [onTransition, hi]
  cases leg with
  | waiting =>
    have hwait : 0 < i.delay := hdelay ▸ hleg
    rw [if_pos hwait]
    exact resumesMove_endDelay hi hic fun hin => (Option.some.inj (hd hin)).symm
  | running k =>
    have hrun : 0 < i.remaining := hr ▸ p.interval_pos
    have hwait : ¬ 0 < i.delay := by simp [hdelay]
    have hm : i.motion = some p.motion := hm
    have hnext : i.present.shift p.motion.step = p.shown (k + 1) := by
      rw [← Cruise.shown_succ]
      exact congrArg (·.shift p.motion.step) hpresent
    have hstop : i.present.shift p.motion.step = i.target ↔ k + 1 = p.steps := by
      rw [hnext, ht]
      exact Cruise.shown_succ_eq_iff hleg
    rw [if_neg hwait, if_pos hrun, hm]
    dsimp only
    rw [moveOn_eq]
    by_cases hk : k + 1 = p.steps
    · rw [if_pos (hstop.mpr hk)]
      refine resumesMove_settle hi hic hd? fun hin => ?_
      rw [Cruise.arrival, ← hk]
      exact (Option.some.inj (hd hin)).symm
    · have hmid : n.interim? e m = some (n.moved e m i p.motion) := by
        simp [interim?, hi, hm, hdelay, hrun.ne', mt hstop.mp hk]
      rw [if_neg (mt hstop.mp hk)]
      have hlt : k < p.steps := hleg
      exact resumesMove_program hi hic hd? (by omega) (fun hin => (Option.some.inj (hd hin)).symm)
        (quiet_of_not_overtaken hq hmid)
  | arrived => cases hne

/-- When its timer fires, an instance on a move that is not overtaken goes on to the next leg. -/
theorem Cruises.resumesMove {horizon : Nat} {ts : Timers} (hc : n.Cruises e m p) (h : n.Sound)
    (hpop : n.timers.pop? horizon = some (transitionTimer e m, ts))
    (hq : ¬ ({ n with timers := ts } : Node).Overtaken e m) :
    ({ n with timers := ts } : Node).ResumesMove (({ n with timers := ts } : Node).onTransition e m)
      e m p := by
  obtain ⟨leg, edge, since, hleg, hcourse, -, hexact⟩ := hc
  have hw : ({ n with timers := ts } : Node).watch e m = (some (p.course edge leg), none) :=
    Prod.ext hcourse.course (h.ordered.deadline?_popped_self hpop)
  obtain ⟨d, hd, -⟩ := Timers.deadline?_popped_le hpop
  have hlength : (p.length? leg).isSome := by
    rw [← Option.isSome_map, ← hcourse.armed, watch, hd]
    rfl
  refine resumesMove_onTransition hw hleg hlength (fun hin => ?_) hq
  have hin : n.timers.WithinClock := (popped_precedes hpop).withinClock hin
  have hdue : (n.watch e m).2 = some ts.now := h.ordered.deadline?_popped hin hpop
  rw [hcourse.exact hin, hexact hin, ← Cruise.deadline?_eq] at hdue
  exact hdue

theorem cruises_step (h : n.Sound) (hs : Step (Spares e m) n n')
    (hr : n'.requestsFor e m = n.requestsFor e m) (hc : n.Cruises e m p) : n'.Cruises e m p := by
  have harmings := (step_precedes h hs).armings
  rcases step_spares hs hr with ⟨hw, hnow⟩ | ⟨horizon, ts, hpop, rfl⟩
  · exact hc.congr hw hnow harmings
  · obtain ⟨n₁, hr₁, htr, hh⟩ := hc.resumesMove h hpop (not_overtaken_of_quiet hr)
    exact htr.congr ((hh e m).watch (hr.trans hr₁.symm)) hh.now.ge hh.armings

theorem cruises_steps (h : n.Sound) (hs : Steps (Spares e m) n n')
    (hr : n'.requestsFor e m = n.requestsFor e m) (hc : n.Cruises e m p) : n'.Cruises e m p := by
  induction hs with
  | refl => exact hc
  | @tail n₁ n₂ hs hs' ih =>
    have hr₁ := requestsFor_between (steps_precedes h hs) (step_precedes (h.steps hs) hs') hr
    exact cruises_step (h.steps hs) hs' (hr.trans hr₁.symm) (ih hr₁)

/-! ## On a move -/

/-- A level moves towards the end of its range, and whoever asks is not told how long it takes. -/
structure MovesTo (n : Node) (e : UInt8) (bound : Level) (i : Instance) : Prop where
  moving : i.isMoving = true
  report : n.report? e .level = some ⟨i.present, some (.level bound), some .unknown⟩

/-- Between two operations the time tells where an instance on a move is. -/
theorem Cruises.located (h : n.Cruises e m p) (hr : n.AtRest) (hin : n.timers.WithinClock) :
    ∃ leg i, n.get? e m = some i ∧ p.Has leg ∧ (∃ edge, i.course = p.course edge leg) ∧
      n.timers.deadline? (transitionTimer e m) = p.deadline? leg ∧ p.since leg ≤ n.now ∧
      ∀ d, p.deadline? leg = some d → n.now < d := by
  obtain ⟨leg, edge, since, hleg, hcourse, hsince, hexact⟩ := h
  obtain ⟨i, hi, hic, hd⟩ := watch_eq_some (hcourse.watch_eq hin)
  rw [hexact hin] at hsince
  rw [hexact hin, ← Cruise.deadline?_eq] at hd
  exact ⟨leg, i, hi, hleg, ⟨edge, hic⟩, hd, hsince, fun d hd' =>
    hr hin _ (Timers.mem_of_deadline? (hd.trans hd'))⟩

theorem movesTo_of_course {bound : Level} (hi : n.get? e .level = some i)
    (hic : i.course = p.course edge leg) (hb : p.request.value = .level bound)
    (hbusy : i.phase ≠ .idle) : n.MovesTo e bound i := by
  have hcourse := hic
  obtain ⟨-, ht, -, -, -, -, hm, -⟩ := Course.mk.injEq .. ▸ hic
  have hmove : i.motion = some p.motion ∧ i.target = .level bound := by
    cases leg with
    | waiting | running k => exact ⟨hm, ht.trans hb⟩
    | arrived =>
      have harrived : p.Has .arrived := trivial
      exact absurd (Cruise.phase_of_course harrived hcourse) hbusy
  have hmoving : i.isMoving = true := by
    rw [Instance.isMoving, hmove.1]
    rfl
  have hrest : ¬ (i.remaining = 0 ∧ i.delay = 0) := by
    rw [Ne, Instance.phase_eq_idle_iff] at hbusy
    omega
  refine ⟨hmoving, ?_⟩
  rw [report?, hi, Option.map_some, if_neg hrest, hmove.2, reportedTime, if_pos hmoving]

/-! ## From a message to the end of the range -/

/-- The move that a client's speed and time mean for a level that shows some value. -/
structure Means (n : Node) (e : UInt8) (l speed : Level) (t d : Nat) (p : Cruise) : Prop where
  request : p.request =
    ⟨e, .level, .level speed.bound, (n.motion speed t).interval, d, .client⟩
  motion : p.motion = n.motion speed t
  start : p.start = n.now
  origin : p.origin = .level l
  steps : p.steps ≤ 65535

namespace Means

variable {l speed : Level} {t d x : Nat} (hp : n.Means e l speed t d p)
include hp

theorem value : p.request.value = .level speed.bound := congrArg Request.value hp.request

theorem departure : p.departure = n.now + 5 * d := by
  rw [Cruise.departure, hp.start, hp.request]
  rfl

theorem arrival : p.arrival = n.now + 5 * d + p.steps * (n.motion speed t).interval := by
  rw [Cruise.arrival, hp.departure, hp.motion]

theorem shown (k : Nat) :
    p.shown k = .level (Level.clamp (l.toInt + k * (n.motion speed t).step)) := by
  rw [Cruise.shown, hp.origin, hp.motion]
  exact Value.iterate_shift rfl _ k

section Located

variable (hc : n'.Cruises e .level p) (hr : n'.AtRest) (hin : n'.timers.WithinClock)
  (hx : n'.now = n.now + x) (hi : n'.get? e .level = some i)
include hc hr hin hx hi

theorem delayed (hlt : x < 5 * d) :
    i.phase = .delayed ∧ i.present = .level l ∧ n'.MovesTo e speed.bound i := by
  obtain ⟨leg, j, hj, hleg, ⟨edge, hjc⟩, -, hsince, huntil⟩ := hc.located hr hin
  obtain rfl := Option.some.inj (hi.symm.trans hj)
  have hdeparture := hp.departure
  obtain rfl := (Cruise.leg_of_time hsince huntil).1 (by omega)
  have hphase : i.phase = .delayed := Cruise.phase_of_course hleg hjc
  refine ⟨hphase, (congrArg Course.present hjc).trans hp.origin, ?_⟩
  exact movesTo_of_course hi hjc hp.value (by simp [hphase])

theorem running {k : Nat} (hk : k < p.steps)
    (hle : 5 * d + k * (n.motion speed t).interval ≤ x)
    (hlt : x < 5 * d + (k + 1) * (n.motion speed t).interval) :
    i.phase = .transitioning ∧
      i.present = .level (Level.clamp (l.toInt + k * (n.motion speed t).step)) ∧
      n'.MovesTo e speed.bound i := by
  obtain ⟨leg, j, hj, hleg, ⟨edge, hjc⟩, -, hsince, huntil⟩ := hc.located hr hin
  obtain rfl := Option.some.inj (hi.symm.trans hj)
  have hrunning := (Cruise.leg_of_time hsince huntil).2.1
  rw [hp.departure, hp.motion] at hrunning
  obtain rfl := hrunning k hk (by omega) (by omega)
  have hphase : i.phase = .transitioning := Cruise.phase_of_course hleg hjc
  refine ⟨hphase, (congrArg Course.present hjc).trans (hp.shown k), ?_⟩
  exact movesTo_of_course hi hjc hp.value (by simp [hphase])

theorem settled (hle : 5 * d + p.steps * (n.motion speed t).interval ≤ x) :
    i.phase = .idle ∧ i.isMoving = false ∧ i.present = .level speed.bound ∧
      i.target = .level speed.bound ∧ n'.timers.isArmed (transitionTimer e .level) = false := by
  obtain ⟨leg, j, hj, hleg, ⟨edge, hjc⟩, hd, hsince, huntil⟩ := hc.located hr hin
  obtain rfl := Option.some.inj (hi.symm.trans hj)
  have harrival := hp.arrival
  obtain rfl := (Cruise.leg_of_time hsince huntil).2.2 (by omega) hleg
  have hmotion : i.motion = none := congrArg Course.motion hjc
  refine ⟨Cruise.phase_of_course hleg hjc, ?_, (congrArg Course.present hjc).trans hp.value,
    (congrArg Course.target hjc).trans hp.value, ?_⟩
  · rw [Instance.isMoving, hmotion]
    rfl
  · rw [Timers.isArmed_eq, hd]
    rfl

end Located

end Means

theorem exists_cruise {speed : Level} (h : n.Sane) (hspeed : speed ≠ 0) (e : UInt8) (l : Level)
    (t d : Nat) : ∃ p : Cruise, n.Means e l speed t d p := by
  have hupdate := h.moveInterval_pos
  obtain ⟨K, ⟨hK, hK'⟩, hlast, hbefore⟩ := Level.exists_first_at_bound l hspeed
    (Motion.sign_step_ofSpeed speed.toInt t _)
  have hshown (k : Nat) : (fun v : Value => v.shift (n.motion speed t).step)^[k] (.level l) =
      .level (Level.clamp (l.toInt + k * (n.motion speed t).step)) :=
    Value.iterate_shift rfl _ k
  refine ⟨⟨⟨e, .level, .level speed.bound, (n.motion speed t).interval, d, .client⟩,
    n.motion speed t, n.now, .level l, K, rfl, rfl, ?_, hK, ?_, ?_⟩, rfl, rfl, rfl, rfl, hK'⟩
  · exact Motion.interval_ofSpeed_pos speed.toInt t hupdate
  · exact (hshown K).trans (congrArg Value.level hlast)
  · intro k hk hlt heq
    exact hbefore k hk hlt (Value.level.inj ((hshown k).symm.trans heq))

theorem start_cruises {l speed : Level} {t d : Nat} (hi : n.get? e .level = some i)
    (hl : i.present = .level l) (hp : n.Means e l speed t d p) :
    ∃ n₁ : Node, n₁.requestsFor e .level = (p.request, some p.motion) :: n.requestsFor e .level ∧
      n₁.Cruises e .level p ∧ n₁.KeepsToRequests (n.startForClient e (.level speed.bound)
        (n.motion speed t).interval d (some (n.motion speed t))) := by
  obtain ⟨n₁, hw, hh⟩ := start_writes (v := .level speed.bound)
    (t := (n.motion speed t).interval) (d := d) (s := .client) isAftermath_keepsToRequests
    (fun _ n v => keepsToRequests_follow n e .level v) (some (n.motion speed t)) hi
  have hcourse := p.enter_first (n.admittedCourse i ⟨e, .level, .level speed.bound,
    (n.motion speed t).interval, d, .client⟩ (some p.motion)) rfl rfl (hl.trans hp.origin.symm)
  have htime := p.enterTime_first (n.admittedCourse i ⟨e, .level, .level speed.bound,
    (n.motion speed t).interval, d, .client⟩ (some p.motion)) rfl n.config.stepInterval.toNat
  rw [hp.request, hp.motion] at hcourse
  rw [hp.request, hp.motion] at htime
  refine ⟨n₁, ?_, ⟨p.first, false, n.now, p.has_first, ?_, hw.now.ge, fun _ => ?_⟩, hh⟩
  · rw [hp.request, hp.motion]
    exact hw.requests
  · exact hw.onCourse.cast hcourse (congrArg (Option.map (n.now + ·)) htime)
  · rw [p.since_first, hp.start]

section Receive

variable {c : Envelope} {bytes : List UInt8} {ack : Bool} {q : Params Level} {l : Level}
  {t d : Nat} {ops : List Operation}

theorem receive_move (hi : n.get? c.element .level = some i)
    (hq : Params.movement bytes = .ok q) (hspeed : q.value ≠ 0)
    (htiming : n.timing c.element q.timing = (t, d)) (ht : 0 < t)
    (hs : (n.receive c (.levelMove bytes ack)).2 = .accepted) :
    (n.receive c (.levelMove bytes ack)).1 =
      ((n.remember c .level q.tid ack).startForClient c.element (.level q.value.bound)
        (n.motion q.value t).interval d (some (n.motion q.value t))).answerUnlessDelayed c
          .level := by
  simp only [receive, Message.model, hi, process, withParams, hq, onMove] at hs ⊢
  cases hverdict : i.transaction.verdict c.src q.tid with
  | reject =>
    rw [hverdict] at hs
    cases hs
  | accept =>
    simp only [htiming, if_neg hspeed, if_pos ht]
    rfl

/-- A level is still on the move that a message asked for if it took up nothing since. -/
theorem cruises_run (hn : n.IsReached) (hi : n.get? c.element .level = some i)
    (hl : i.present = .level l) (hq : Params.movement bytes = .ok q) (hspeed : q.value ≠ 0)
    (htiming : n.timing c.element q.timing = (t, d)) (ht : 0 < t)
    (hs : (n.receive c (.levelMove bytes ack)).2 = .accepted)
    (hn' : n' = (n.receive c (.levelMove bytes ack)).1.run ops)
    (hops : (n.receive c (.levelMove bytes ack)).1.Admits (Spares c.element .level) ops)
    (hone : (n'.requestsFor c.element .level).length =
      (n.requestsFor c.element .level).length + 1) :
    ∃ p : Cruise, n.Means c.element l q.value t d p ∧ n'.Cruises c.element .level p := by
  subst hn'
  obtain ⟨p, hp⟩ := exists_cruise hn.sound.toSane hspeed c.element l t d
  have hw₀ : (n.remember c .level q.tid ack).watch c.element .level = n.watch c.element .level :=
    watch_remember c.element .level
  obtain ⟨i₀, hi₀, hic, -⟩ := watch_eq_some (hw₀.trans (watch_of_get? hi))
  have hp₀ : (n.remember c .level q.tid ack).Means c.element l q.value t d p :=
    ⟨hp.request, hp.motion, hp.start, hp.origin, hp.steps⟩
  obtain ⟨n₁, hr₁, hc₁, hh₁⟩ := start_cruises hi₀ ((congrArg Course.present hic).trans hl) hp₀
  have hh : n₁.KeepsToRequests (n.receive c (.levelMove bytes ack)).1 := by
    rw [receive_move hi hq hspeed htiming ht hs]
    exact hh₁.trans (works_answerUnlessDelayed _ c .level).keepsToRequests
  have hsound : (n.receive c (.levelMove bytes ack)).1.Sound :=
    hn.sound.handle (.receive c (.levelMove bytes ack))
  have hsteps := run_steps hops
  obtain ⟨hquiet₁, hquiet⟩ := requestsFor_of_one hr₁ hh (steps_precedes hsound hsteps) hone
  refine ⟨p, hp, cruises_steps hsound hsteps hquiet ?_⟩
  exact hc₁.congr ((hh _ _).watch hquiet₁) hh.now.ge hh.armings

/-- A level that accepted a move and is left to itself waits for the delay, goes one step further
after each interval, for as long as that does not lead to the end of its range, and once it does, as
it must in the end, it has settled there. -/
theorem move_runs_to_end {x : Nat} (hn : n.IsReached) (hi : n.get? c.element .level = some i)
    (hl : i.present = .level l) (hq : Params.movement bytes = .ok q) (hspeed : q.value ≠ 0)
    (htiming : n.timing c.element q.timing = (t, d)) (ht : 0 < t)
    (hs : (n.receive c (.levelMove bytes ack)).2 = .accepted)
    (hn' : n' = (n.receive c (.levelMove bytes ack)).1.run ops)
    (hops : (n.receive c (.levelMove bytes ack)).1.Admits (Spares c.element .level) ops)
    (hone : (n'.requestsFor c.element .level).length =
      (n.requestsFor c.element .level).length + 1) (hx : n'.now = n.now + x)
    (hin : n'.timers.WithinClock) :
    ∃ (K : Nat) (j : Instance), n'.get? c.element .level = some j ∧ (1 ≤ K ∧ K ≤ 65535) ∧
      Level.clamp (l.toInt + K * (n.motion q.value t).step) = q.value.bound ∧
      (∀ k : Nat, 1 ≤ k → k < K →
        Level.clamp (l.toInt + k * (n.motion q.value t).step) ≠ q.value.bound) ∧
      (x < 5 * d → j.phase = .delayed ∧ j.present = .level l ∧
        n'.MovesTo c.element q.value.bound j) ∧
      (∀ k < K, 5 * d + k * (n.motion q.value t).interval ≤ x →
        x < 5 * d + (k + 1) * (n.motion q.value t).interval → j.phase = .transitioning ∧
          j.present = .level (Level.clamp (l.toInt + k * (n.motion q.value t).step)) ∧
          n'.MovesTo c.element q.value.bound j) ∧
      (5 * d + K * (n.motion q.value t).interval ≤ x → j.phase = .idle ∧ j.isMoving = false ∧
        j.present = .level q.value.bound ∧ j.target = .level q.value.bound ∧
        n'.timers.isArmed (transitionTimer c.element .level) = false) := by
  obtain ⟨p, hp, hc⟩ := cruises_run hn hi hl hq hspeed htiming ht hs hn' hops hone
  have hsound : (n.receive c (.levelMove bytes ack)).1.Sound :=
    hn.sound.handle (.receive c (.levelMove bytes ack))
  have hrest : n'.AtRest :=
    hn' ▸ (hn.atRest.handle hn.sound (.receive c (.levelMove bytes ack))).run hsound ops
  obtain ⟨-, j, hj, -⟩ := hc.located hrest hin
  refine ⟨p.steps, j, hj, ⟨p.steps_pos, hp.steps⟩, ?_, ?_, ?_, ?_, ?_⟩
  · exact Value.level.inj ((hp.shown p.steps).symm.trans (p.last.trans hp.value))
  · intro k hk hlt heq
    exact p.before k hk hlt ((hp.shown k).trans (heq ▸ hp.value.symm))
  · exact hp.delayed hc hrest hin hx hj
  · exact fun k => hp.running hc hrest hin hx hj
  · exact hp.settled hc hrest hin hx hj

/-- Two steps up and the level is at the top. -/
theorem move_runs_to_end_soloLevel :
    let n' := (soloLevel.receive ⟨0, 7, 0, true⟩ (.levelMove [32, 78, 1, 1, 2] true)).1.run
      [.advance 10, .advance 150, .call (.query 0 .level), .advance 100]
    n'.now = 260 ∧ ∃ j, n'.get? 0 .level = some j ∧ j.phase = .idle ∧
      j.present = .level 32767 := by
  intro n'
  have hspares : ∀ (n : Node) (x : Call), Operation.call x ∈
      [.advance 10, .advance 150, .call (.query 0 .level), .advance 100] → Spares 0 .level n x := by
    intro n x hx
    obtain rfl : x = .query 0 .level := by simpa using hx
    exact id
  have hparams : Params.movement [32, 78, 1, 1, 2] = .ok ⟨20000, 1, some ⟨⟨1⟩, 2⟩⟩ := by decide
  obtain ⟨K, j, hj, -, -, hfirst, -, -, hend⟩ := move_runs_to_end (x := 260) (t := 100) (d := 2)
    ⟨soloLevel, [], isBuilt_soloLevel, rfl⟩ rfl rfl hparams (by decide) (by decide) (by decide)
    (by decide +kernel) (.refl n') (admits_of_forall hspares _) (by decide +kernel)
    (by decide +kernel) (by decide +kernel)
  have hK : K ≤ 2 := by
    by_contra hlt
    exact hfirst 2 (by decide) (Nat.lt_of_not_le hlt) (by decide)
  have hdue : 5 * 2 + K * (soloLevel.motion 20000 100).interval ≤ 260 := by
    have hinterval : (soloLevel.motion 20000 100).interval = 100 := by decide
    rw [hinterval]
    omega
  obtain ⟨hphase, -, hpresent, -⟩ := hend hdue
  exact ⟨by decide +kernel, j, hj, hphase, hpresent⟩

/-- At the end of the clock a level is at the top of its range as soon as it sets out there. -/
theorem moved_early_soloLevel :
    let n := soloLevel.run [.advance lastMoment]
    let c : Envelope := ⟨0, 7, 0, true⟩
    let bytes : List UInt8 := [32, 78, 1, 1, 2]
    let n' := (n.receive c (.levelMove bytes true)).1.run [.advance 0]
    n.IsReached ∧ Params.movement bytes = .ok ⟨20000, 1, some ⟨⟨1⟩, 2⟩⟩ ∧
      n.timing 0 (some ⟨⟨1⟩, 2⟩) = (100, 2) ∧ (n.receive c (.levelMove bytes true)).2 = .accepted ∧
      (n.receive c (.levelMove bytes true)).1.Admits (Spares 0 .level) [.advance 0] ∧
      (n'.requestsFor 0 .level).length = (n.requestsFor 0 .level).length + 1 ∧ n'.now = n.now ∧
      (n'.get? 0 .level).map (fun i => (i.phase, i.present)) = some (.idle, .level 32767) := by
  intro n c bytes n'
  exact ⟨⟨soloLevel, _, isBuilt_soloLevel, rfl⟩, by decide, by decide +kernel, by decide +kernel,
    admits_of_forall (by simp) _, by decide +kernel, by decide +kernel, by decide +kernel⟩

end Receive

end Node

end MeshNode
