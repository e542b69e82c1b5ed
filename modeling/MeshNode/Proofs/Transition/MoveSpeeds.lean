import MeshNode.Progress
import MeshNode.Value

/-! # Speeds

The distance and the time that a speed is given by become a step and an interval, both of them
whole. A speed that shows at every update is rounded in its step, and a slower one in its interval.
So a move never stands still, and as long as its step is not too long for a word it goes at more
than half and at less than twice its speed. What is computed on the way fits in its words.
-/

namespace MeshNode

namespace Motion

variable {delta i j : Int} {transition update n k : Nat}

/-! ## Steps and intervals -/

theorem sign_saturate32 (i : Int) : (saturate32 i).sign = i.sign := by
  rcases Int.lt_trichotomy i 0 with h | rfl | h
  · have hneg : saturate32 i < 0 := by
      unfold saturate32
      omega
    rw [Int.sign_eq_neg_one_iff_neg.mpr hneg, Int.sign_eq_neg_one_iff_neg.mpr h]
  · rfl
  · have hpos : 0 < saturate32 i := by
      unfold saturate32
      omega
    rw [Int.sign_eq_one_iff_pos.mpr hpos, Int.sign_eq_one_iff_pos.mpr h]

def longest (i : Int) : Nat := if i < 0 then 2147483648 else 2147483647

theorem longest_congr (h : i.sign = j.sign) : longest i = longest j := by
  have hneg : i < 0 ↔ j < 0 := by
    rw [← Int.sign_eq_neg_one_iff_neg, h, Int.sign_eq_neg_one_iff_neg]
  simp only [longest, hneg]

theorem natAbs_saturate32 (i : Int) : (saturate32 i).natAbs = min i.natAbs (longest i) := by
  unfold saturate32 longest
  split <;> omega

/-- A step that is cut to fit in a word leads every value as far as the whole step. -/
@[simp] theorem shift_saturate32 (v : Value) (i : Int) : v.shift (saturate32 i) = v.shift i := by
  cases v with
  | level l =>
    have hlo := l.le_toInt
    have hhi := l.toInt_lt
    have hend : max (-32768) (min (l.toInt + saturate32 i) 32767) =
        max (-32768) (min (l.toInt + i) 32767) := by
      unfold saturate32
      omega
    exact congrArg (fun p => Value.level (.ofInt p)) hend
  | lightness l =>
    have hhi := l.toNat_lt
    have hend : max 0 (min ((l.toNat : Int) + saturate32 i) 65535) =
        max 0 (min ((l.toNat : Int) + i) 65535) := by
      unfold saturate32
      omega
    exact congrArg (fun p => Value.lightness (.ofNat p.toNat)) hend
  | onOff | onPowerUp | defaultTransition => rfl

theorem natAbs_quotient (delta : Int) (transition update : Nat) :
    ((delta * update).tdiv transition).natAbs = delta.natAbs * update / transition := by
  rw [Int.natAbs_tdiv, Int.natAbs_mul]
  rfl

theorem quotient_eq_zero_iff (h : 0 < transition) :
    (delta * update).tdiv transition = 0 ↔ delta.natAbs * update < transition := by
  rw [← Int.natAbs_eq_zero, natAbs_quotient, Nat.div_eq_zero_iff_lt h]

theorem sign_quotient (hupdate : 0 < update) (htransition : 0 < transition)
    (h : transition ≤ delta.natAbs * update) :
    ((delta * update).tdiv transition).sign = delta.sign := by
  have hshows : ¬ (delta * update).natAbs < (transition : Int).natAbs := by
    rw [Int.natAbs_mul]
    exact Nat.not_lt.mpr h
  rw [Int.sign_tdiv, if_neg hshows, Int.sign_mul,
    Int.sign_eq_one_iff_pos.mpr (Int.natCast_pos.mpr hupdate),
    Int.sign_eq_one_iff_pos.mpr (Int.natCast_pos.mpr htransition), Int.mul_one, Int.mul_one]

theorem ofSpeed_of_le (h : max transition 1 ≤ delta.natAbs * update) :
    ofSpeed delta transition update =
      ⟨saturate32 ((delta * update).tdiv (max transition 1 : Nat)), update⟩ :=
  if_pos fun hstep =>
    Nat.not_lt.mpr h ((quotient_eq_zero_iff (Nat.le_max_right ..)).mp hstep)

theorem ofSpeed_of_lt (h : delta.natAbs * update < max transition 1) :
    ofSpeed delta transition update =
      ⟨delta.sign, max (transition / max delta.natAbs 1) 1⟩ :=
  if_neg fun hstep => hstep ((quotient_eq_zero_iff (Nat.le_max_right ..)).mpr h)

theorem sign_step_ofSpeed (delta : Int) (transition update : Nat) :
    (ofSpeed delta transition update).step.sign = delta.sign := by
  rcases Nat.lt_or_ge (delta.natAbs * update) (max transition 1) with hslow | hfast
  · rw [ofSpeed_of_lt hslow]
    exact Int.sign_sign
  · have hmul : 0 < delta.natAbs * update := Nat.lt_of_lt_of_le (Nat.le_max_right ..) hfast
    rw [ofSpeed_of_le hfast, sign_saturate32]
    exact sign_quotient (Nat.pos_of_mul_pos_left hmul) (Nat.le_max_right ..) hfast

/-- Every step leads on towards the value, which is the end of the range. -/
def LeadsTo (k : Motion) (v : Value) : Prop :=
  0 < k.step ∧ v = .level 32767 ∨ k.step < 0 ∧ v = .level (-32768)

theorem leadsTo_ofSpeed {speed : Level} (h : speed ≠ 0) (transition update : Nat) :
    (ofSpeed speed.toInt transition update).LeadsTo
      (.level (if speed < 0 then -32768 else 32767)) := by
  have hsign := sign_step_ofSpeed speed.toInt transition update
  have hne : speed.toInt ≠ 0 := fun h0 => h (Int16.toInt_inj.mp h0)
  by_cases hneg : speed < 0
  · have hlt : speed.toInt < 0 := Int16.lt_iff_toInt_lt.mp hneg
    have hstep := hsign.trans (Int.sign_eq_neg_one_of_neg hlt)
    exact .inr ⟨Int.sign_eq_neg_one_iff_neg.mp hstep, by rw [if_pos hneg]⟩
  · have hlt : ¬ speed.toInt < 0 := fun hlt => hneg (Int16.lt_iff_toInt_lt.mpr hlt)
    have hstep := hsign.trans (Int.sign_eq_one_of_pos (by omega))
    exact .inl ⟨Int.sign_eq_one_iff_pos.mp hstep, by rw [if_neg hneg]⟩

theorem interval_ofSpeed_pos (delta : Int) (transition : Nat) (h : 0 < update) :
    0 < (ofSpeed delta transition update).interval := by
  rcases Nat.lt_or_ge (delta.natAbs * update) (max transition 1) with hslow | hfast
  · rw [ofSpeed_of_lt hslow]
    exact Nat.le_max_right ..
  · rw [ofSpeed_of_le hfast]
    exact h

/-! ## Rounding -/

/-- The move goes at more than half and at less than twice the speed of a distance in a time. -/
def GoesAbout (m : Motion) (distance time : Nat) : Prop :=
  distance * m.interval < 2 * (m.step.natAbs * time) ∧
    m.step.natAbs * time < 2 * (distance * m.interval)

/-- A quotient that is not zero gives back more than half of what was divided, and no more than
it. -/
theorem div_mul_bounds (hpos : 0 < k) (h : k ≤ n) : n < 2 * (n / k * k) ∧ n / k * k < 2 * n := by
  have hrest := Nat.mod_lt n hpos
  have hsplit := Nat.div_add_mod' n k
  have hone := Nat.le_mul_of_pos_left k (Nat.div_pos h hpos)
  omega

section Fast

variable (hupdate : 0 < update) (htransition : 0 < transition)
  (h : transition ≤ delta.natAbs * update)

include htransition h in
theorem interval_of_le : (ofSpeed delta transition update).interval = update := by
  rw [ofSpeed_of_le (Nat.max_le.mpr ⟨h, Nat.lt_of_lt_of_le htransition h⟩)]

include hupdate htransition h in
theorem natAbs_step_of_le : (ofSpeed delta transition update).step.natAbs =
    min (delta.natAbs * update / transition) (longest delta) := by
  rw [ofSpeed_of_le (Nat.max_le.mpr ⟨h, Nat.lt_of_lt_of_le htransition h⟩),
    Nat.max_eq_left htransition, natAbs_saturate32, natAbs_quotient,
    longest_congr (sign_quotient hupdate htransition h)]

include hupdate htransition h in
theorem goesAbout_of_le (hfits : delta.natAbs * update / transition ≤ longest delta) :
    (ofSpeed delta transition update).GoesAbout delta.natAbs transition := by
  rw [GoesAbout, interval_of_le htransition h, natAbs_step_of_le hupdate htransition h,
    Nat.min_eq_left hfits]
  exact div_mul_bounds htransition h

end Fast

section Slow

variable (hdelta : delta ≠ 0) (hupdate : 0 < update) (h : delta.natAbs * update < transition)

include hupdate h in
theorem le_transition_of_slow : delta.natAbs ≤ transition :=
  Nat.le_of_lt (Nat.lt_of_le_of_lt (Nat.le_mul_of_pos_right _ hupdate) h)

include hdelta hupdate h in
/-- A slower speed goes one unit at a time, each in the time that it takes, rounded. -/
theorem ofSpeed_of_slow :
    ofSpeed delta transition update = ⟨delta.sign, transition / delta.natAbs⟩ := by
  have hpos : 0 < delta.natAbs := Int.natAbs_pos.mpr hdelta
  have hle := le_transition_of_slow hupdate h
  rw [ofSpeed_of_lt (Nat.lt_of_lt_of_le h (Nat.le_max_left ..)), Nat.max_eq_left hpos,
    Nat.max_eq_left (Nat.div_pos hle hpos)]

include hdelta hupdate h in
theorem goesAbout_of_slow :
    (ofSpeed delta transition update).GoesAbout delta.natAbs transition := by
  have hpos : 0 < delta.natAbs := Int.natAbs_pos.mpr hdelta
  have hle := le_transition_of_slow hupdate h
  obtain ⟨hmore, hless⟩ := div_mul_bounds hpos hle
  rw [GoesAbout, ofSpeed_of_slow hdelta hupdate h, Int.natAbs_sign_of_ne_zero hdelta, Nat.one_mul,
    Nat.mul_comm delta.natAbs]
  exact ⟨hless, hmore⟩

end Slow

theorem update_le_interval (hdelta : delta ≠ 0) (hupdate : 0 < update)
    (htransition : 0 < transition) : update ≤ (ofSpeed delta transition update).interval := by
  rcases Nat.lt_or_ge (delta.natAbs * update) transition with hslow | hfast
  · rw [ofSpeed_of_slow hdelta hupdate hslow]
    rw [Nat.mul_comm] at hslow
    exact (Nat.le_div_iff_mul_le (Int.natAbs_pos.mpr hdelta)).mpr (Nat.le_of_lt hslow)
  · exact Nat.le_of_eq (interval_of_le htransition hfast).symm

/-! ## In machine words -/

def word64? (i : Int) : Option Int64 :=
  if Int64.minValue.toInt ≤ i ∧ i ≤ Int64.maxValue.toInt then some (.ofInt i) else none

def mul64? (a b : Int64) : Option Int64 := word64? (a.toInt * b.toInt)

def div64? (a b : Int64) : Option Int64 :=
  if b = 0 then none else word64? (a.toInt.tdiv b.toInt)

def div32? (a b : UInt32) : Option UInt32 := if b = 0 then none else some (a / b)

def narrow (a : Int64) : Int32 :=
  if Int32.minValue.toInt ≤ a.toInt ∧ a.toInt ≤ Int32.maxValue.toInt then a.toInt32
  else if a.toInt < 0 then .minValue else .maxValue

/-- A step and an interval in words as `ofSpeed` has them, where a division by zero or a result that
does not fit in its word is a failure. -/
def ofSpeed? (delta : Int16) (transition update : UInt32) : Option (Int32 × UInt32) := do
  let distance ← mul64? delta.toInt64 (.ofNat update.toNat)
  let step ← div64? distance (.ofNat (max transition 1).toNat)
  if step ≠ 0 then return (narrow step, update)
  else
    let interval ← div32? transition (max delta.abs.toUInt16.toUInt32 1)
    return (.ofInt delta.toInt.sign, max interval 1)

def ofWords (w : Int32 × UInt32) : Motion := ⟨w.1.toInt, w.2.toNat⟩

theorem word64?_of_fits (hlo : Int64.minValue.toInt ≤ i) (hhi : i ≤ Int64.maxValue.toInt) :
    ∃ w, word64? i = some w ∧ w.toInt = i := by
  refine ⟨.ofInt i, if_pos ⟨hlo, hhi⟩, ?_⟩
  rw [Int64.toInt_minValue] at hlo
  rw [Int64.toInt_maxValue] at hhi
  exact Int64.toInt_ofInt_of_le hlo (Int.lt_of_le_sub_one hhi)

theorem toInt_ofNat_toNat (a : UInt32) : (Int64.ofNat a.toNat).toInt = a.toNat :=
  Int64.toInt_ofNat_of_lt (Nat.lt_trans a.toNat_lt (by decide))

theorem toNat_max_one (a : UInt32) : (max a 1).toNat = max a.toNat 1 := by
  change (if a ≤ 1 then 1 else a).toNat = _
  split
  next hle => exact (Nat.max_eq_right (UInt32.le_iff_toNat_le.mp hle)).symm
  next hgt =>
    rw [UInt32.le_iff_toNat_le] at hgt
    exact (Nat.max_eq_left (Nat.le_of_not_le hgt)).symm

theorem toNat_max_one_pos (a : UInt32) : 0 < (max a 1).toNat := by
  rw [toNat_max_one]
  exact Nat.le_max_right ..

theorem toInt_narrow (a : Int64) : (narrow a).toInt = saturate32 a.toInt := by
  unfold narrow saturate32
  rw [Int32.toInt_minValue, Int32.toInt_maxValue]
  split
  next hfits =>
    rw [Int64.toInt_toInt32, Int.bmod_eq_of_le (by omega) (by omega)]
    omega
  next hfits =>
    split
    next =>
      rw [Int32.toInt_minValue]
      omega
    next =>
      rw [Int32.toInt_maxValue]
      omega

theorem toNat_abs (a : Int16) : a.abs.toUInt16.toUInt32.toNat = a.toInt.natAbs := by
  rw [UInt16.toNat_toUInt32]
  change a.abs.toBitVec.toNat = a.toBitVec.toInt.natAbs
  rw [Int16.toBitVec_abs, BitVec.toNat_abs, BitVec.toInt_eq_msb_cond]
  have hlt := a.toBitVec.isLt
  split <;> omega

theorem mul64?_distance (delta : Int16) (update : UInt32) :
    ∃ w, mul64? delta.toInt64 (.ofNat update.toNat) = some w ∧
      w.toInt = delta.toInt * update.toNat := by
  have hlo := delta.le_toInt
  have hhi := delta.toInt_lt
  have hle : (delta.toInt * update.toNat).natAbs ≤ 32768 * 4294967296 := by
    rw [Int.natAbs_mul]
    exact Nat.mul_le_mul (by omega) (Nat.le_of_lt update.toNat_lt)
  rw [mul64?, Int16.toInt_toInt64, toInt_ofNat_toNat]
  apply word64?_of_fits
  · rw [Int64.toInt_minValue]
    omega
  · rw [Int64.toInt_maxValue]
    omega

/-- Of all divisors only 0 and -1 can fail. -/
theorem div64?_of_pos (a : Int64) {b : UInt32} (hb : 0 < b.toNat) :
    ∃ w, div64? a (.ofNat b.toNat) = some w ∧ w.toInt = a.toInt.tdiv b.toNat := by
  have hne : Int64.ofNat b.toNat ≠ 0 := fun hzero => by
    rw [← Int64.toInt_inj, toInt_ofNat_toNat] at hzero
    exact Nat.ne_of_gt hb (Int.ofNat_inj.mp hzero)
  have hshort := Int.natAbs_tdiv_le_natAbs a.toInt b.toNat
  have hlo := a.le_toInt
  have hhi := a.toInt_lt
  rw [div64?, if_neg hne, toInt_ofNat_toNat]
  apply word64?_of_fits
  · rw [Int64.toInt_minValue]
    omega
  · -- the lowest word has a quotient as short as itself, but not above zero
    rw [Int64.toInt_maxValue]
    rcases Int.le_total 0 a.toInt with hpos | hneg
    · omega
    · have hbelow := Int.tdiv_nonneg (Int.neg_nonneg_of_nonpos hneg) (Int.natCast_nonneg b.toNat)
      rw [Int.neg_tdiv] at hbelow
      omega

theorem div32?_of_pos (a : UInt32) {b : UInt32} (hb : 0 < b.toNat) :
    ∃ w, div32? a b = some w ∧ w.toNat = a.toNat / b.toNat := by
  have hne : b ≠ 0 := fun hzero => Nat.ne_of_gt hb (congrArg UInt32.toNat hzero)
  exact ⟨a / b, if_neg hne, UInt32.toNat_div ..⟩

theorem toInt_ofInt_sign (i : Int) : (Int32.ofInt i.sign).toInt = i.sign := by
  rcases i.sign_trichotomy with h | h | h <;> rw [h] <;> rfl

/-- No speed divides by zero or leaves its words on the way. -/
theorem ofSpeed?_eq (delta : Int16) (transition update : UInt32) :
    (ofSpeed? delta transition update).map ofWords =
      some (ofSpeed delta.toInt transition.toNat update.toNat) := by
  obtain ⟨distance, hmul, hdistance⟩ := mul64?_distance delta update
  obtain ⟨step, hdiv, hstep⟩ := div64?_of_pos distance (toNat_max_one_pos transition)
  rw [hdistance, toNat_max_one] at hstep
  have hone : 0 < max transition.toNat 1 := Nat.le_max_right ..
  simp only [ofSpeed?, hmul, hdiv, Option.bind_eq_bind, Option.bind_some]
  by_cases hzero : step = 0
  · have hslow : delta.toInt.natAbs * update.toNat < max transition.toNat 1 := by
      rw [← quotient_eq_zero_iff hone, ← hstep, hzero]
      rfl
    obtain ⟨interval, hinterval, heq⟩ :=
      div32?_of_pos transition (toNat_max_one_pos delta.abs.toUInt16.toUInt32)
    rw [toNat_max_one, toNat_abs] at heq
    rw [if_neg (not_not_intro hzero), hinterval, ofSpeed_of_lt hslow, Option.bind_some,
      Option.pure_def, Option.map_some, ofWords, toInt_ofInt_sign, toNat_max_one, heq]
  · have hfast : max transition.toNat 1 ≤ delta.toInt.natAbs * update.toNat := by
      rw [← Nat.not_lt, ← quotient_eq_zero_iff hone, ← hstep]
      exact fun h => hzero (Int64.toInt_inj.mp h)
    rw [if_pos hzero, ofSpeed_of_le hfast, Option.pure_def, Option.map_some, ofWords,
      toInt_narrow, hstep]

/-! ## Moves as fast as asked -/

/-- A move never stands still: each step leads the way that was asked for, and the time between two
is no shorter than between two updates. Either the step is what the speed covers from one update to
the next, rounded down to a whole number and to what fits in a word, or the move goes one unit at a
time, in the time that one takes, rounded down. So a move whose step fits in a word goes at more
than half and at less than twice the speed that was asked for. No operation on the way overflows or
divides by zero. -/
theorem as_fast_as_asked {delta : Int16} {transition update : UInt32} (hdelta : delta ≠ 0)
    (htransition : 0 < transition) (hupdate : 0 < update) :
    let d := delta.toInt.natAbs
    let t := transition.toNat
    let u := update.toNat
    let m := ofSpeed delta.toInt t u
    (ofSpeed? delta transition update).map ofWords = some m ∧
      m.step.sign = delta.toInt.sign ∧ u ≤ m.interval ∧
      (t ≤ d * u ∧ m.interval = u ∧ m.step.natAbs = min (d * u / t) (longest delta.toInt) ∨
        d * u < t ∧ m.interval = t / d ∧ m.step.natAbs = 1) ∧
      (d * u / t ≤ longest delta.toInt →
        d * m.interval < 2 * (m.step.natAbs * t) ∧ m.step.natAbs * t < 2 * (d * m.interval)) := by
  intro d t u m
  have hd : delta.toInt ≠ 0 := fun h => hdelta (Int16.toInt_inj.mp h)
  have ht : 0 < t := UInt32.lt_iff_toNat_lt.mp htransition
  have hu : 0 < u := UInt32.lt_iff_toNat_lt.mp hupdate
  refine ⟨ofSpeed?_eq .., sign_step_ofSpeed _ _ _, update_le_interval hd hu ht, ?_⟩
  rcases Nat.lt_or_ge (d * u) t with hslow | hfast
  · have hm : m = ⟨delta.toInt.sign, t / d⟩ := ofSpeed_of_slow hd hu hslow
    refine ⟨.inr ⟨hslow, ?_, ?_⟩, fun _ => goesAbout_of_slow hd hu hslow⟩
    · rw [hm]
    · rw [hm, Int.natAbs_sign_of_ne_zero hd]
  · exact ⟨.inl ⟨hfast, interval_of_le ht hfast, natAbs_step_of_le hu ht hfast⟩,
      goesAbout_of_le hu ht hfast⟩

/-- Down as far as can be said in as much time as can be said, at updates a second apart; down by 35
a second, at ten updates a second; and down as fast as can be said, with a step too long for a
word. -/
theorem as_fast_as_asked_downwards :
    ((-32768 : Int16) ≠ 0 ∧ (0 : UInt32) < 4294967295 ∧ (0 : UInt32) < 1000 ∧
        (ofSpeed? (-32768) 4294967295 1000).map ofWords = some ⟨-1, 131071⟩ ∧
        32768 * 131071 < 2 * (1 * 4294967295) ∧ 1 * 4294967295 < 2 * (32768 * 131071)) ∧
      ((-35 : Int16) ≠ 0 ∧ (0 : UInt32) < 1000 ∧ (0 : UInt32) < 100 ∧
        (ofSpeed? (-35) 1000 100).map ofWords = some ⟨-3, 100⟩ ∧
        35 * 100 < 2 * (3 * 1000) ∧ 3 * 1000 < 2 * (35 * 100)) ∧
      ((0 : UInt32) < 1 ∧ (0 : UInt32) < 4294967295 ∧
        (ofSpeed? (-32768) 1 4294967295).map ofWords = some ⟨-2147483648, 4294967295⟩) := by
  have hdown : (-32768 : Int16) ≠ 0 := by decide
  have hless : (-35 : Int16) ≠ 0 := by decide
  have hlong : (0 : UInt32) < 4294967295 := by decide
  have hsecond : (0 : UInt32) < 1000 := by decide
  have htenth : (0 : UInt32) < 100 := by decide
  have hone : (0 : UInt32) < 1 := by decide
  obtain ⟨hslow, -, -, -, hslow'⟩ := as_fast_as_asked hdown hlong hsecond
  obtain ⟨hfast, -, -, -, hfast'⟩ := as_fast_as_asked hless hsecond htenth
  obtain ⟨hcut, -⟩ := as_fast_as_asked hdown hone hlong
  exact ⟨⟨hdown, hlong, hsecond, hslow, hslow' (by decide)⟩,
    ⟨hless, hsecond, htenth, hfast, hfast' (by decide)⟩, hone, hlong, hcut⟩

end Motion

end MeshNode
