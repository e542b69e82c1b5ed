import Mathlib.Logic.Function.Iterate
import Mathlib.Tactic.Ring
import MeshNode.Proofs.Node.StateChanges

/-! # Trips

A request that an instance takes up sends it on a trip: it waits for the delay, runs through the
transition, in steps if there are any, and arrives. The place and the length of every leg follow
from the request, the value that the instance had and the time.
-/

namespace MeshNode

namespace Course

def finish (c : Course) (w : Value) : Course :=
  { c with
    present := w, target := w, remaining := 0, delay := 0, stepping := .none, motion := none,
    edgeResolved := false }

/-- The course once a request is entered and what comes first has begun. -/
def enter (c : Course) (w : Value) (t d : Nat) (s : Source) : Course :=
  let c := { c with target := w, remaining := t, delay := d, source := s }
  if 0 < d then c
  else if 0 < t then
    if w.isImmediate then
      { c with present := w, edgeResolved := c.edgeResolved || s.triggersBindings }
    else c
  else c.finish w

/-- How long the timer runs after a request is entered, if it runs. -/
def enterTime? (c : Course) (interval t d : Nat) : Option Nat :=
  if 0 < d then some (TransitionTime.delayMs d)
  else if 0 < t then some (if c.stepping.isActive then interval else t)
  else none

def stepped (c : Course) : Course :=
  { c with present := c.present.shift c.stepping.increment, stepping := c.stepping.next }

theorem enter_zero (c : Course) (w : Value) (s : Source) :
    c.enter w 0 0 s =
      { c with target := w, remaining := 0, delay := 0, source := s : Course }.finish w :=
  rfl

theorem enterTime?_zero (c : Course) (interval : Nat) : c.enterTime? interval 0 0 = none := rfl

end Course

/-- A request taken up at some time by an instance that showed some value. -/
structure Trip where
  request : Request
  start : Nat
  origin : Value
  /-- The length of an interim step. -/
  interval : Nat

namespace Trip

/-- The parts of a trip. A transition runs with a number of steps behind it. -/
inductive Leg where
  | waiting
  | running (k : Nat)
  | arrived

variable (p : Trip)

def stepping : Stepping := .plan p.origin p.request.value p.request.transition p.interval

def departure : Nat := p.start + TransitionTime.delayMs p.request.delay

/-- When the instance settles. -/
def arrival : Nat := p.departure + p.request.transition

def shown (k : Nat) : Value :=
  if p.request.value.isImmediate then p.request.value
  else (·.shift p.stepping.increment)^[k] p.origin

def Has : Leg → Prop
  | .waiting => 0 < p.request.delay
  | .running k => 0 < p.request.transition ∧ (k = 0 ∨ k < p.stepping.steps)
  | .arrived => True

def course (edge : Bool) : Leg → Course
  | .waiting => ⟨p.origin, p.request.value, p.request.transition, p.request.delay,
      p.request.source, p.stepping, none, edge⟩
  | .running k => ⟨p.shown k, p.request.value, p.request.transition - k * p.interval, 0,
      p.request.source,
      ⟨if k + 1 < p.stepping.steps then p.stepping.steps - k else 0, p.stepping.increment⟩,
      none, edge⟩
  | .arrived => ⟨p.request.value, p.request.value, 0, 0, p.request.source, .none, none, edge⟩

/-- Whether a leg has the mark that the edge was resolved, from what it was before the trip. -/
def edge (before : Bool) : Leg → Bool
  | .waiting => before
  | .running _ => before || p.request.value.isImmediate && p.request.source.triggersBindings
  | .arrived => false

/-- The course after a step when the time that is left has not been reduced yet. -/
def between (edge : Bool) (k : Nat) : Course :=
  ⟨p.shown (k + 1), p.request.value, p.request.transition - k * p.interval, 0, p.request.source,
    ⟨if k + 1 + 1 < p.stepping.steps then p.stepping.steps - (k + 1) else 0,
      p.stepping.increment⟩, none, edge⟩

def since : Leg → Nat
  | .waiting => p.start
  | .running k => p.departure + k * p.interval
  | .arrived => p.arrival

def length? : Leg → Option Nat
  | .waiting => some (TransitionTime.delayMs p.request.delay)
  | .running k =>
    some (if k + 1 < p.stepping.steps then p.interval else p.request.transition - k * p.interval)
  | .arrived => none

def deadline? : Leg → Option Nat
  | .waiting => some p.departure
  | .running k =>
    some (if k + 1 < p.stepping.steps then p.departure + (k + 1) * p.interval else p.arrival)
  | .arrived => none

def Leg.phase : Leg → Phase
  | waiting => .delayed
  | running _ => .transitioning
  | arrived => .idle

/-- The time belongs to the part of the trip that the leg is from. -/
def During (t : Nat) : Leg → Prop
  | .waiting => t < p.departure
  | .running _ => p.departure ≤ t ∧ t < p.arrival
  | .arrived => p.arrival ≤ t

def depart : Leg := if 0 < p.request.transition then .running 0 else .arrived

def next : Leg → Leg
  | .waiting => p.depart
  | .running k => if k + 1 < p.stepping.steps then .running (k + 1) else .arrived
  | .arrived => .arrived

def first : Leg := if 0 < p.request.delay then .waiting else p.depart

variable {p}

theorem stepping_cases :
    p.stepping = .none ∨
      2 ≤ p.stepping.steps ∧ p.stepping.steps = p.request.transition / p.interval ∧
        p.request.value.isImmediate = false := by
  unfold stepping Stepping.plan
  split
  next a b ha hb =>
    dsimp only
    split
    · exact Or.inl rfl
    next h =>
      refine Or.inr ⟨by simp only [not_or, not_lt] at h ⊢; exact h.2, rfl, ?_⟩
      exact Value.not_isImmediate_of_model (Value.model_of_position? (by simp [hb]))
  next => exact Or.inl rfl

theorem steps_mul_le (k : Nat) (h : k < p.stepping.steps) :
    k * p.interval + p.interval ≤ p.request.transition := by
  rcases stepping_cases (p := p) with h0 | ⟨-, hs, -⟩
  · simp [h0, Stepping.none] at h
  · rw [hs] at h
    calc k * p.interval + p.interval = (k + 1) * p.interval := by ring
      _ ≤ p.request.transition / p.interval * p.interval := Nat.mul_le_mul_right _ h
      _ ≤ p.request.transition := Nat.div_mul_le_self ..

theorem not_isImmediate_of_steps {k : Nat} (h : k < p.stepping.steps) :
    p.request.value.isImmediate = false := by
  rcases stepping_cases (p := p) with h0 | ⟨-, -, hi⟩
  · simp [h0, Stepping.none] at h
  · exact hi

theorem remaining_running {k : Nat} (h : p.Has (.running k)) (hp : 0 < p.interval) :
    0 < p.request.transition - k * p.interval := by
  obtain ⟨ht, rfl | hk⟩ := h
  · simpa using ht
  · have := steps_mul_le k hk
    omega

theorem deadline?_eq {leg : Leg} (h : p.Has leg) :
    p.deadline? leg = (p.length? leg).map (p.since leg + ·) := by
  cases leg with
  | waiting | arrived => rfl
  | running k =>
    have hle : k * p.interval ≤ p.request.transition := by
      rcases h.2 with rfl | hk
      · simp
      · exact (Nat.le_add_right ..).trans (steps_mul_le k hk)
    simp only [deadline?, length?, since, arrival, Option.map_some, Nat.add_mul, Nat.one_mul]
    congr 1
    split <;> omega

theorem has_depart : p.Has p.depart := by
  unfold depart
  split
  · exact ⟨‹_›, Or.inl rfl⟩
  · trivial

theorem has_first : p.Has p.first := by
  unfold first
  split
  · assumption
  · exact has_depart

theorem since_depart : p.since p.depart = p.departure := by
  unfold depart
  split
  · simp [since]
  · simp only [since, arrival]
    omega

theorem stepping_none_of_short (h : p.request.transition / p.interval < 2) :
    p.stepping = .none := by
  rcases stepping_cases (p := p) with h0 | ⟨h2, hs, -⟩
  · exact h0
  · omega

theorem stepping_none_of_onOff {state : OnOff} (h : p.request.value = .onOff state) :
    p.stepping = .none := by
  unfold stepping Stepping.plan
  rw [h]
  cases p.origin.position? <;> rfl

/-- Without steps nothing changes on the way. -/
theorem shown_of_stepping_none {k : Nat} (hk : p.Has (.running k)) (h : p.stepping = .none) :
    p.shown k = if p.request.value.isImmediate then p.request.value else p.origin := by
  obtain rfl : k = 0 := by
    rcases hk.2 with hk | hk
    · exact hk
    · simp [h, Stepping.none] at hk
  rfl

theorem deadline_le_arrival {k d : Nat} (hd : p.deadline? (.running k) = some d) :
    d ≤ p.arrival := by
  obtain rfl := Option.some.inj hd
  split
  next hk =>
    have := steps_mul_le (k + 1) hk
    rw [arrival]
    omega
  next => exact Nat.le_refl _

theorem during {t : Nat} {leg : Leg} (hs : p.since leg ≤ t)
    (hd : ∀ d, p.deadline? leg = some d → t < d) : p.During t leg := by
  cases leg with
  | waiting => exact hd _ rfl
  | running k =>
    exact ⟨(Nat.le_add_right _ _).trans hs, (hd _ rfl).trans_le (deadline_le_arrival rfl)⟩
  | arrived => exact hs

theorem phase_of_course {i : Instance} {edge : Bool} {leg : Leg} (h : p.Has leg)
    (hp : 0 < p.interval) (hic : i.course = p.course edge leg) : i.phase = leg.phase := by
  obtain ⟨-, -, hr, hd, -⟩ := Course.mk.injEq .. ▸ hic
  cases leg with
  | waiting =>
    have hwait : 0 < i.delay := hd ▸ h
    rw [Instance.phase, if_pos hwait]
    rfl
  | running k =>
    have hwait : ¬ 0 < i.delay := by simp [hd]
    have hrun : 0 < i.remaining := hr ▸ remaining_running h hp
    rw [Instance.phase, if_neg hwait, if_pos hrun]
    rfl
  | arrived => simp [Instance.phase, hd, hr, Leg.phase]

/-! ## From leg to leg -/

theorem stepping_unstepped :
    (⟨if 1 < p.stepping.steps then p.stepping.steps else 0, p.stepping.increment⟩ : Stepping) =
      p.stepping := by
  rcases stepping_cases (p := p) with h | ⟨h, -, -⟩
  · rw [h]
    rfl
  · rw [if_pos (by omega)]

theorem isActive_iff : p.stepping.isActive = true ↔ 0 + 1 < p.stepping.steps := by
  rw [Stepping.isActive, decide_eq_true_eq]
  rcases stepping_cases (p := p) with h | ⟨h, -, -⟩
  · simp [h, Stepping.none]
  · omega

section Enter

variable (w : Value) (t d : Nat) (s : Source) (edge : Bool)

theorem enter_depart :
    (⟨p.origin, w, t, d, s, p.stepping, none, edge⟩ : Course).enter p.request.value
      p.request.transition 0 p.request.source = p.course (p.edge edge p.depart) p.depart := by
  by_cases ht : 0 < p.request.transition
  · by_cases hi : p.request.value.isImmediate = true
    · simp [Course.enter, depart, course, Trip.edge, shown, ht, hi, stepping_unstepped]
    · simp [Course.enter, depart, course, Trip.edge, shown, ht, hi, stepping_unstepped]
  · simp [Course.enter, depart, course, Trip.edge, Course.finish, ht]

theorem enterTime_depart :
    (⟨p.origin, w, t, d, s, p.stepping, none, edge⟩ : Course).enterTime? p.interval
      p.request.transition 0 = p.length? p.depart := by
  by_cases ht : 0 < p.request.transition
  · simp only [Course.enterTime?, depart, length?, ht, isActive_iff, lt_irrefl, if_true, if_false,
      Nat.zero_mul, Nat.sub_zero]
  · simp [Course.enterTime?, depart, length?, ht]

theorem enter_first :
    (⟨p.origin, w, t, d, s, p.stepping, none, edge⟩ : Course).enter p.request.value
      p.request.transition p.request.delay p.request.source =
        p.course (p.edge edge p.first) p.first := by
  by_cases hd : 0 < p.request.delay
  · simp [Course.enter, first, course, Trip.edge, hd]
  · rw [first, if_neg hd, Nat.eq_zero_of_not_pos hd]
    exact enter_depart w t d s edge

theorem enterTime_first :
    (⟨p.origin, w, t, d, s, p.stepping, none, edge⟩ : Course).enterTime? p.interval
      p.request.transition p.request.delay = p.length? p.first := by
  by_cases hd : 0 < p.request.delay
  · simp [Course.enterTime?, first, length?, hd]
  · rw [first, if_neg hd, Nat.eq_zero_of_not_pos hd]
    exact enterTime_depart w t d s edge

end Enter

theorem since_first : p.since p.first = p.start := by
  unfold first
  split
  next => rfl
  next hd =>
    rw [since_depart]
    simp [departure, TransitionTime.delayMs, Nat.eq_zero_of_not_pos hd]

theorem shown_succ {k : Nat} (h : k < p.stepping.steps) :
    (p.shown k).shift p.stepping.increment = p.shown (k + 1) := by
  have hi : ¬ p.request.value.isImmediate = true := by
    simp [not_isImmediate_of_steps h]
  rw [shown, shown, if_neg hi, if_neg hi, Function.iterate_succ_apply']

section Step

variable {k : Nat} (h : k + 1 < p.stepping.steps) (edge : Bool)
include h

theorem remaining_pos : 0 < p.request.transition - k * p.interval - p.interval := by
  rcases stepping_cases (p := p) with h0 | ⟨h2, hs, -⟩
  · simp [h0, Stepping.none] at h
  · have hle := steps_mul_le (k + 1) h
    have hi : 0 < p.interval := by
      rcases Nat.eq_zero_or_pos p.interval with h0 | h0
      · rw [hs, h0, Nat.div_zero] at h
        omega
      · exact h0
    rw [Nat.add_mul, Nat.one_mul] at hle
    omega

theorem next_stepping :
    Stepping.next ⟨if k + 1 < p.stepping.steps then p.stepping.steps - k else 0,
      p.stepping.increment⟩ =
    ⟨if k + 1 + 1 < p.stepping.steps then p.stepping.steps - (k + 1) else 0,
      p.stepping.increment⟩ := by
  rw [Stepping.next, if_pos h]
  dsimp only
  congr 1
  split <;> split <;> omega

theorem stepped_course : (p.course edge (.running k)).stepped = p.between edge k := by
  simp only [Course.stepped, course]
  rw [next_stepping h, shown_succ (Nat.lt_of_succ_lt h)]
  rfl

theorem enter_step :
    (p.between edge k).enter p.request.value (p.request.transition - k * p.interval - p.interval) 0
      p.request.source = p.course edge (.running (k + 1)) := by
  have hi := not_isImmediate_of_steps h
  simp [between, Course.enter, remaining_pos h, hi, course, Nat.add_mul, Nat.sub_add_eq]

theorem enterTime_step :
    (p.between edge k).enterTime? p.interval
      (p.request.transition - k * p.interval - p.interval) 0 = p.length? (.running (k + 1)) := by
  have hactive : (p.between edge k).stepping.isActive = true ↔ k + 1 + 1 < p.stepping.steps := by
    rw [Stepping.isActive, decide_eq_true_eq, between]
    dsimp only
    split <;> omega
  simp only [Course.enterTime?, lt_irrefl, if_false, remaining_pos h, if_true, length?, hactive,
    Nat.add_mul, Nat.one_mul, Nat.sub_add_eq]

end Step

theorem finish_course (edge : Bool) (leg : Leg) :
    (p.course edge leg).finish p.request.value = p.course false .arrived := by
  cases leg <;> rfl

end Trip

end MeshNode
