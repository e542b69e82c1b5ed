import MeshNode.Proofs.Light.KeepingToRange
import MeshNode.Proofs.Transition.SettlingOnTime

/-! # The pace of a transition

A long transition from position to position goes in steps of one length. What it shows after some
of them is as far along the line as that many steps lead, or at the end of the line. The number of
steps is taken as a signed word, so with too many of them the steps lead away from the target.
-/

namespace MeshNode

namespace Value

variable {v w : Value} {a p p' q : Int}

def line : Value → Int × Int
  | level _ => (-32768, 32767)
  | lightness _ => (0, 65535)
  | _ => (0, 0)

/-- A position, or the nearer end of the line that a value lies on. -/
def pull (v : Value) (p : Int) : Int := max v.line.1 (min p v.line.2)

theorem line_of_model (h : v.model = w.model) : v.line = w.line := by
  cases v <;> cases w <;> first | rfl | cases h

theorem mem_line (h : v.position? = some a) : v.line.1 ≤ a ∧ a ≤ v.line.2 := by
  cases v with
  | level l =>
    obtain rfl := Option.some.inj h
    exact ⟨l.le_toInt, Int.le_of_lt_add_one l.toInt_lt⟩
  | lightness l =>
    obtain rfl := Option.some.inj h
    have := l.toNat_lt
    simp only [line]
    omega
  | _ => cases h

theorem length_line_lt (v : Value) : v.line.2 - v.line.1 < 2147483648 := by
  cases v <;> exact of_decide_eq_true rfl

theorem pull_eq_self (hlo : v.line.1 ≤ p) (hhi : p ≤ v.line.2) : v.pull p = p := by
  rw [pull, min_eq_left hhi, max_eq_right hlo]

theorem position?_atPosition (h : v.position? = some a) (p : Int) :
    (v.atPosition p).position? = some (v.pull p) := by
  cases v with
  | level l =>
    refine congrArg some (Int16.toInt_ofInt_of_le ?_ ?_)
    · exact Int.le_max_left ..
    · exact Int.max_lt.mpr ⟨by decide, Int.lt_of_le_of_lt (Int.min_le_right ..) (by decide)⟩
  | lightness l => exact congrArg some (Lightness.toNat_clamp p)
  | _ => cases h

theorem atPosition_self (h : v.position? = some a) : v.atPosition a = v := by
  have hpull : v.pull a = a := pull_eq_self (mem_line h).1 (mem_line h).2
  cases v with
  | level l =>
    obtain rfl := Option.some.inj h
    exact congrArg level ((congrArg Int16.ofInt hpull).trans (Int16.ofInt_toInt l))
  | lightness l =>
    obtain rfl := Option.some.inj h
    have hnat : (max 0 (min (l.toNat : Int) 65535)).toNat = l.toNat := congrArg Int.toNat hpull
    rw [atPosition, Lightness.clamp, hnat, UInt16.ofNat_toNat]
  | _ => cases h

theorem atPosition_atPosition (v : Value) (p p' : Int) :
    (v.atPosition p).atPosition p' = v.atPosition p' := by
  cases v <;> rfl

theorem atPosition_congr (h : v.pull p = v.pull p') : v.atPosition p = v.atPosition p' := by
  cases v with
  | level l => exact congrArg (fun x => level (Int16.ofInt x)) h
  | lightness l => exact congrArg (fun x => lightness (UInt16.ofNat x.toNat)) h
  | _ => rfl

/-- Pulling after every step of one length is pulling once. -/
theorem pull_pull_add (h : v.position? = some a) (q : Int) (k : Nat) :
    v.pull (v.pull (a + k * q) + q) = v.pull (a + (k + 1 : Nat) * q) := by
  obtain ⟨hlo, hhi⟩ := mem_line h
  have hsucc : a + ((k + 1 : Nat) : Int) * q = a + k * q + q := by
    push_cast
    ring
  rw [hsucc]
  simp only [pull]
  rcases Int.le_total 0 q with hq | hq
  · have hmul : 0 ≤ (k : Int) * q := Int.mul_nonneg (by omega) hq
    omega
  · have hmul : (k : Int) * q ≤ 0 := Int.mul_nonpos_of_nonneg_of_nonpos (by omega) hq
    omega

theorem iterate_shift (h : v.position? = some a) (q : Int) (k : Nat) :
    (·.shift q)^[k] v = v.atPosition (a + k * q) := by
  induction k with
  | zero => simp [atPosition_self h]
  | succ k ih =>
    have hpos := position?_atPosition h (a + k * q)
    rw [Function.iterate_succ_apply', ih, shift, hpos, atPosition_atPosition]
    exact atPosition_congr (pull_pull_add h q k)

end Value

/-! ## The steps of a transition -/

namespace Stepping

variable {st : Stepping} {line : Int × Int} {a b d : Int} {steps k : Nat}

/-- Steps on the way between two positions lead on from each other and not beyond the second one. -/
def Marches (a b q : Int) (k : Nat) : Prop :=
  ∀ j ≤ k, a ≤ a + j * q ∧ a + j * q ≤ a + k * q ∧ a + k * q ≤ b ∨
    b ≤ a + k * q ∧ a + k * q ≤ a + j * q ∧ a + j * q ≤ a

/-- Taking a number of steps as a signed word does not show on a line: the word holds it, or the
distance is too short for a step, or the steps lead away from the target and off the line. -/
def IsFaithful (line : Int × Int) (a b : Int) (steps : Nat) : Prop :=
  steps < 2147483648 ∨ (b - a).natAbs < 4294967296 - steps ∨ a = line.1 ∧ a ≤ b ∨
    a = line.2 ∧ b ≤ a

theorem word32_of_ge (h : 2147483648 ≤ steps) (hlt : steps < 4294967296) :
    word32 steps = (steps : Int) - UInt32.size := by
  have hsize : ((UInt32.size : Nat) : Int) = 4294967296 := rfl
  have hword : ((steps : Int) - UInt32.size).bmod UInt32.size = (steps : Int) - UInt32.size := by
    apply Int.bmod_eq_of_le
    all_goals
      rw [hsize]
      omega
  exact (Int.sub_bmod_right (steps : Int) UInt32.size).symm.trans hword

theorem plan_of_le {v w : Value} {t interval : Nat} (ha : v.position? = some a)
    (hb : w.position? = some b) (hsteps : steps = t / interval) (h2 : 2 ≤ steps) :
    plan v w t interval = ⟨steps, (b - a).tdiv (word32 steps)⟩ := by
  have hpos : ¬ (interval = 0 ∨ t / interval < 2) := by
    rintro (rfl | hlt)
    · rw [hsteps, Nat.div_zero] at h2
      omega
    · omega
  simp only [plan, ha, hb]
  rw [if_neg hpos, ← hsteps]

theorem Approaches.marches (h : st.Approaches a b) (hk : k ≤ st.steps) :
    Marches a b st.increment k := by
  intro j hj
  have hj' : (j : Int) ≤ k := by exact_mod_cast hj
  have hk' : (k : Int) ≤ st.steps := by exact_mod_cast hk
  rcases h with ⟨hinc, hend⟩ | ⟨hinc, hend⟩
  · have hzero := Int.mul_nonneg (Int.natCast_nonneg j) hinc
    have hmid := Int.mul_le_mul_of_nonneg_right hj' hinc
    have hlast := Int.mul_le_mul_of_nonneg_right hk' hinc
    exact .inl ⟨by omega, by omega, by omega⟩
  · have hzero := Int.mul_nonpos_of_nonneg_of_nonpos (Int.natCast_nonneg j) hinc
    have hmid := Int.mul_le_mul_of_nonpos_right hj' hinc
    have hlast := Int.mul_le_mul_of_nonpos_right hk' hinc
    exact .inr ⟨by omega, by omega, by omega⟩

/-- Equal parts of the way, of a number that a signed word holds, lead towards the target. -/
theorem marches_plan {v w : Value} {t interval : Nat} (ha : v.position? = some a)
    (hb : w.position? = some b) (hsteps : steps = t / interval) (h2 : 2 ≤ steps)
    (hsmall : steps < 2147483648) (hk : k ≤ steps) : Marches a b ((b - a).tdiv steps) k := by
  have hplan := plan_of_le ha hb hsteps h2
  rw [word32_of_lt hsmall] at hplan
  have hactive : 0 < (plan v w t interval).steps := by
    rw [hplan]
    exact Nat.lt_of_lt_of_le (by decide) h2
  have happroaches := approaches_plan ha hb (hsteps ▸ hsmall) hactive
  rw [hplan] at happroaches
  exact happroaches.marches hk

theorem tdiv_eq_zero (h : d.natAbs < steps) : d.tdiv steps = 0 := by
  have hsign := Int.sign_tdiv d steps
  rw [Int.natAbs_natCast, if_pos h] at hsign
  exact Int.sign_eq_zero_iff_zero.mp hsign

theorem pull_add_eq_self {v : Value} {q : Int} (ha : v.position? = some a) (hk : 1 ≤ k) :
    v.pull (a + k * q) = a ↔ q = 0 ∨ 0 < q ∧ a = v.line.2 ∨ q < 0 ∧ a = v.line.1 := by
  obtain ⟨hlo, hhi⟩ := Value.mem_line ha
  have hk' : (1 : Int) ≤ k := by exact_mod_cast hk
  rw [Value.pull]
  rcases lt_trichotomy q 0 with hq | rfl | hq
  · have hmul : (k : Int) * q < 0 := Int.mul_neg_of_pos_of_neg (by omega) hq
    omega
  · rw [Int.mul_zero]
    omega
  · have hmul : 0 < (k : Int) * q := Int.mul_pos (by omega) hq
    omega

/-- The step as planned leads away from the target if the number of steps does not fit a signed
word. -/
theorem sign_tdiv_word32 (h : 2147483648 ≤ steps) (hlt : steps < 4294967296) :
    (d.tdiv (word32 steps)).sign =
      if d.natAbs < 4294967296 - steps then 0 else -d.sign := by
  have hsize : ((UInt32.size : Nat) : Int) = 4294967296 := rfl
  have hword := word32_of_ge h hlt
  have habs : (word32 steps).natAbs = 4294967296 - steps := by omega
  have hneg : (word32 steps).sign = -1 := Int.sign_eq_neg_one_iff_neg.mpr (by omega)
  rw [Int.sign_tdiv, habs, hneg, Int.mul_neg, Int.mul_one]

/-- What the steps of a plan lead to is what equal parts of the way lead to, if taking their number
as a signed word does not show. -/
theorem pull_plan_iff {v w : Value} {t interval : Nat} (ha : v.position? = some a)
    (hb : w.position? = some b) (hline : w.line = v.line) (hsteps : steps = t / interval)
    (h2 : 2 ≤ steps) (hlt : steps < 4294967296) (hk : 1 ≤ k) (hks : k < steps) :
    v.pull (a + k * (plan v w t interval).increment) = a + k * (b - a).tdiv steps ↔
      IsFaithful v.line a b steps := by
  obtain ⟨hlo, hhi⟩ := Value.mem_line ha
  obtain ⟨hlo', hhi'⟩ := hline ▸ Value.mem_line hb
  have hplan := plan_of_le ha hb hsteps h2
  rw [hplan]
  by_cases hsmall : steps < 2147483648
  · -- The steps lie on the way.
    have hmarch := (marches_plan ha hb hsteps h2 hsmall hks.le) k (Nat.le_refl k)
    dsimp only
    rw [word32_of_lt hsmall]
    exact iff_of_true (Value.pull_eq_self (by omega) (by omega)) (.inl hsmall)
  · -- More steps than there are positions: equal parts of the way have no length.
    have hshort := Value.length_line_lt v
    have hsign := sign_tdiv_word32 (d := b - a) (Nat.not_lt.mp hsmall) hlt
    rw [tdiv_eq_zero (d := b - a) (by omega), Int.mul_zero, Int.add_zero, pull_add_eq_self ha hk,
      IsFaithful, ← Int.sign_eq_zero_iff_zero, ← Int.sign_eq_one_iff_pos,
      ← Int.sign_eq_neg_one_iff_neg, hsign]
    split
    next hnear => exact iff_of_true (.inl rfl) (.inr (.inl hnear))
    next hfar =>
      rw [neg_eq_zero, neg_inj, neg_eq_iff_eq_neg, Int.sign_eq_zero_iff_zero,
        Int.sign_eq_one_iff_pos, Int.sign_eq_neg_one_iff_neg]
      omega

end Stepping

/-! ## The pace of a trip -/

namespace Trip

variable {p : Trip} {leg : Leg} {a b : Int} {t k : Nat}

theorem running_of_time (hleg : p.Has leg) (hs : p.since leg ≤ t)
    (hd : ∀ d, p.deadline? leg = some d → t < d) (hk : p.Has (.running k))
    (hs' : p.since (.running k) ≤ t) (hd' : ∀ d, p.deadline? (.running k) = some d → t < d) :
    leg = .running k := by
  have harrival := (hd' _ rfl).trans_le (deadline_le_arrival (p := p) (k := k) rfl)
  simp only [since] at hs'
  cases leg with
  | waiting => exact absurd (hd _ rfl) (Nat.not_lt.mpr ((Nat.le_add_right ..).trans hs'))
  | arrived => exact absurd hs (Nat.not_le.mpr harrival)
  | running j =>
    -- Of two running legs the earlier one ends when or before the later one begins.
    have hends {j k : Nat} (hk : p.Has (.running k)) (hlt : j < k)
        (hd : ∀ d, p.deadline? (.running j) = some d → t < d) :
        t < p.departure + k * p.interval := by
      have hsteps : k < p.stepping.steps := hk.2.resolve_left (by omega)
      have hend := hd _ rfl
      rw [if_pos (by omega)] at hend
      exact hend.trans_le (Nat.add_le_add_left (Nat.mul_le_mul_right _ hlt) _)
    rcases lt_trichotomy j k with hlt | rfl | hlt
    · exact absurd (hends hk hlt hd) (Nat.not_lt.mpr hs')
    · rfl
    · exact absurd (hends hleg hlt hd') (Nat.not_lt.mpr hs)

theorem shown_eq (ha : p.origin.position? = some a) (hb : p.request.value.position? = some b)
    (k : Nat) : p.shown k = p.origin.atPosition (a + k * p.stepping.increment) := by
  have hi : ¬ p.request.value.isImmediate = true := by
    cases hv : p.request.value with
    | onOff s => rw [hv] at hb; cases hb
    | _ => simp [Value.isImmediate]
  rw [shown, if_neg hi, Value.iterate_shift ha]

end Trip

namespace Node

variable {n n' : Node} {r : Request} {i j : Instance} {ops : List Operation} {a b : Int}
  {steps k x : Nat}

theorem isTransitional_of_position? {v : Value} (h : v.position? = some a) :
    v.model.isTransitional = true := by
  cases v <;> first | rfl | cases h

theorem Travels.shows {e : UInt8} {m : Model} {p : Trip} (h : n.Travels e m p) (hr : n.AtRest)
    (hin : n.timers.WithinClock) (hk : p.Has (.running k)) (hs : p.since (.running k) ≤ n.now)
    (hd : ∀ d, p.deadline? (.running k) = some d → n.now < d) :
    ∃ j, n.get? e m = some j ∧ j.present = p.shown k := by
  obtain ⟨leg, edge, since, hleg, hcourse, hsince, hexact⟩ := h
  obtain ⟨j, hj, hjc, hd'⟩ := watch_eq_some (hcourse.watch_eq hin)
  rw [hexact hin] at hsince
  rw [hexact hin, ← Trip.deadline?_eq hleg] at hd'
  have hrest : ∀ d, p.deadline? leg = some d → n.now < d := by
    intro d hd
    exact hr hin _ (Timers.mem_of_deadline? (hd'.trans hd))
  obtain rfl := Trip.running_of_time hleg hsince hrest hk hs hd
  exact ⟨j, hj, congrArg Course.present hjc⟩

theorem Travels.shows_position {e : UInt8} {m : Model} {p : Trip} (h : n.Travels e m p)
    (hr : n.AtRest) (hin : n.timers.WithinClock) (ha : p.origin.position? = some a)
    (hb : p.request.value.position? = some b)
    (ht : 0 < p.request.transition) (hk : k < p.stepping.steps)
    (hs : p.departure + k * p.interval ≤ n.now)
    (hd : n.now < if k + 1 < p.stepping.steps then p.departure + (k + 1) * p.interval
      else p.arrival) :
    ∃ j, n.get? e m = some j ∧
      j.present = p.origin.atPosition (a + k * p.stepping.increment) := by
  have hhas : p.Has (.running k) := ⟨ht, .inr hk⟩
  have huntil : ∀ d, p.deadline? (.running k) = some d → n.now < d := by
    rintro d ⟨⟩
    exact hd
  obtain ⟨j, hj, hshown⟩ := h.shows hr hin hhas hs huntil
  exact ⟨j, hj, hshown.trans (Trip.shown_eq ha hb k)⟩

theorem stepping_trip (hm : r.model.isTransitional = true) (ha : i.present.position? = some a)
    (hb : (confine i r.value).position? = some b)
    (hsteps : steps = r.transition / n.config.stepInterval.toNat) (h2 : 2 ≤ steps) :
    (n.trip (admitted i r) i.present).stepping =
      ⟨steps, (b - a).tdiv (Stepping.word32 steps)⟩ := by
  have hlength : (n.trip (admitted i r) i.present).request.transition = r.transition := if_pos hm
  exact Stepping.plan_of_le ha hb (by rwa [hlength]) h2

theorem transition_pos (hsteps : steps = r.transition / n.config.stepInterval.toNat)
    (h2 : 2 ≤ steps) : 0 < r.transition := by
  refine Nat.pos_of_ne_zero fun hzero => ?_
  rw [hsteps, hzero, Nat.zero_div] at h2
  exact absurd h2 (by decide)

/-- In a step interval of the transition that a request asked for, the instance shows as many steps
as have passed. -/
theorem Travels.shows_steps (ht : n'.Travels r.element r.model (n.trip (admitted i r) i.present))
    (hr : n'.AtRest) (hin : n'.timers.WithinClock) (hm : r.model.isTransitional = true)
    (ha : i.present.position? = some a) (hb : (confine i r.value).position? = some b)
    (hsteps : steps = r.transition / n.config.stepInterval.toNat) (h2 : 2 ≤ steps)
    (hk : k < steps) (hx : n'.now = n.now + x)
    (hsince : 5 * r.delay + k * n.config.stepInterval.toNat ≤ x)
    (huntil : x < 5 * r.delay +
      if k + 1 < steps then (k + 1) * n.config.stepInterval.toNat else r.transition) :
    ∃ j, n'.get? r.element r.model = some j ∧
      j.present = i.present.atPosition (a + k * (b - a).tdiv (Stepping.word32 steps)) := by
  have hstepping := stepping_trip (n := n) hm ha hb hsteps h2
  have hdeparture := departure_admitted (n := n) hm i i.present
  have harrival := arrival_admitted (n := n) hm i i.present
  have hlength : (n.trip (admitted i r) i.present).request.transition = r.transition := if_pos hm
  have hinterval : (n.trip (admitted i r) i.present).interval = n.config.stepInterval.toNat := rfl
  have hbegun : n.now + 5 * r.delay + k * n.config.stepInterval.toNat ≤ n'.now := by omega
  have hunended : n'.now <
      if k + 1 < steps then n.now + 5 * r.delay + (k + 1) * n.config.stepInterval.toNat
      else n.now + (5 * r.delay + r.transition) := by
    rw [hx]
    split at huntil
    next hmore =>
      rw [if_pos hmore]
      omega
    next hmore =>
      rw [if_neg hmore]
      omega
  obtain ⟨j, hj, hshown⟩ := ht.shows_position (k := k) hr hin ha hb
    (hlength ▸ transition_pos hsteps h2) (by rwa [hstepping]) (by rwa [hdeparture, hinterval])
    (by rwa [hstepping, hdeparture, harrival, hinterval])
  refine ⟨j, hj, ?_⟩
  rw [hshown, hstepping]
  rfl

theorem line_confine (hn : n.Sound) (hi : n.get? r.element r.model = some i)
    (hs : (n.request r).2 = .success) : (confine i r.value).line = i.present.line := by
  have hheld : i.present.model = r.model := (hn.typed _ _ i hi).present
  have hasked : (confine i r.value).model = r.model :=
    (model_confine i r.value).trans (model_of_check hs rfl)
  exact Value.line_of_model (hasked.trans hheld.symm)

/-- What an instance of a model with positions shows in each step interval of a transition, if it is
left to itself: one step further for each that has passed, on the line. These are equal parts of the
way towards the target exactly if taking the number of steps as a signed word does not show, and of
fewer steps none leads back or beyond the target. -/
theorem keeps_pace (hn : n.IsReached) (hi : n.get? r.element r.model = some i)
    (ha : i.present.position? = some a) (hb : (confine i r.value).position? = some b)
    (hs : (n.request r).2 = .success) (hn' : n' = (n.request r).1.run ops)
    (hops : (n.request r).1.Admits (Spares r.element r.model) ops)
    (hone : (n'.requestsFor r.element r.model).length =
      (n.requestsFor r.element r.model).length + 1)
    (hsteps : steps = r.transition / n.config.stepInterval.toNat) (h2 : 2 ≤ steps)
    (hlt : r.transition < UInt32.size) (hk : k < steps) (hx : n'.now = n.now + x)
    (hsince : 5 * r.delay + k * n.config.stepInterval.toNat ≤ x)
    (huntil : x < 5 * r.delay +
      if k + 1 < steps then (k + 1) * n.config.stepInterval.toNat else r.transition)
    (hin : n'.timers.WithinClock) :
    ∃ j, n'.get? r.element r.model = some j ∧
      j.present = i.present.atPosition (a + k * (b - a).tdiv (Stepping.word32 steps)) ∧
      (1 ≤ k → (j.present.position? = some (a + k * (b - a).tdiv steps) ↔
        Stepping.IsFaithful i.present.line a b steps)) ∧
      (steps < 2147483648 → Stepping.Marches a b ((b - a).tdiv steps) k) := by
  subst hn'
  have hm : r.model.isTransitional = true :=
    (hn.sound.typed _ _ i hi).present ▸ isTransitional_of_position? ha
  have hsize : steps < 4294967296 := hsteps ▸ (Nat.div_le_self ..).trans_lt hlt
  have hsound : (n.request r).1.Sound := hn.sound.handle (.request r)
  have hrest := (hn.atRest.handle hn.sound (.request r)).run hsound ops
  obtain ⟨j, hj, hpresent⟩ := (travels_run hn hi hs hops hone).shows_steps hrest hin hm ha hb
    hsteps h2 hk hx hsince huntil
  refine ⟨j, hj, hpresent, fun hk1 => ?_, fun hsmall => ?_⟩
  · have hiff := Stepping.pull_plan_iff ha hb (line_confine hn.sound hi hs) hsteps h2 hsize hk1 hk
    rw [Stepping.plan_of_le ha hb hsteps h2] at hiff
    rwa [hpresent, Value.position?_atPosition ha, Option.some_inj]
  · exact Stepping.marches_plan ha hb hsteps h2 hsmall hk.le

/-- Of three steps of a level, one unit and more each, two have passed. -/
theorem keeps_pace_soloLevel :
    let n' := (soloLevel.request (.application 0 (.level (-100)) 3500 2)).1.run
      [.advance 10, .advance 1500, .call (.query 0 .level), .advance 700]
    n'.now = 2210 ∧ ∃ j, n'.get? 0 .level = some j ∧
      j.present.position? = some (0 + (2 : Nat) * (-100 - 0 : Int).tdiv (3 : Nat)) := by
  intro n'
  have hspares : ∀ (n : Node) (x : Call), Operation.call x ∈
      [.advance 10, .advance 1500, .call (.query 0 .level), .advance 700] →
        Spares 0 .level n x := by
    intro n x hx
    obtain rfl : x = .query 0 .level := by simpa using hx
    exact id
  obtain ⟨j, hj, -, hiff, -⟩ := keeps_pace (k := 2) (x := 2210)
    ⟨soloLevel, [], isBuilt_soloLevel, rfl⟩ rfl rfl rfl rfl (.refl n') (admits_of_forall hspares _)
    (by decide +kernel) (by decide +kernel : 3 = 3500 / 1000) (by decide) (by decide) (by decide)
    (by decide +kernel) (by decide +kernel) (by decide +kernel) (by decide +kernel)
  exact ⟨by decide +kernel, j, hj, (hiff (by decide)).mpr (.inl (by decide))⟩

def swiftLevel : Node :=
  ⟨{ stepInterval := 1 }, [Element.empty.set .level (some (.new .level 16 32))], .withCapacity 30,
    .startingAt 0, .none, false, 0, []⟩

theorem isBuilt_swiftLevel : swiftLevel.IsBuilt :=
  ⟨⟨{ stepInterval := 1 }, [.single .level]⟩, 0, false, rfl⟩

/-- On the longest way to a level above zero the first step leads below zero. -/
theorem steps_backwards_swiftLevel :
    let r : Request := .application 0 (.level 100) 4294967295 0
    let n' := (swiftLevel.request r).1.run [.advance 1]
    swiftLevel.IsReached ∧ swiftLevel.present? 0 .level = some (.level 0) ∧
      (swiftLevel.request r).2 = .success ∧ n'.now = 1 ∧
      n'.present? 0 .level = some (.level (-100)) ∧
      (100 - 0 : Int).tdiv (r.transition / swiftLevel.config.stepInterval.toNat : Nat) = 0 := by
  exact ⟨⟨swiftLevel, [], isBuilt_swiftLevel, rfl⟩, rfl, rfl, by decide +kernel, by decide +kernel,
    by decide +kernel⟩

end Node

end MeshNode
