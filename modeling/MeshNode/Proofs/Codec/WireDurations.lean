import Mathlib.Data.ENat.Basic
import MeshNode.Node.Status

/-! # Durations on the wire

A duration is written in the finest steps that reach it and rounded down. Within one resolution a
shorter duration never reads longer. Where the resolution changes it can: of a little more than 62
fine steps only 60 are left in the coarser ones, while 61 or 62 of them are written as they are.
-/

namespace MeshNode

namespace Resolution

theorem le_maxMs_of_finest? {ms : Nat} {r : Resolution} (h : finest? ms = some r) :
    ms ≤ r.maxMs := by
  unfold finest? at h
  split_ifs at h with h₁ h₂ h₃ h₄ <;> obtain rfl := Option.some.inj h <;> assumption

theorem maxMs_lt_of_finest? {ms : Nat} {r r' : Resolution} (h : finest? ms = some r)
    (hr : r'.stepMs < r.stepMs) : r'.maxMs < ms := by
  unfold finest? at h
  split_ifs at h with h₁ h₂ h₃ h₄ <;> obtain rfl := Option.some.inj h <;> cases r' <;>
    first | exact absurd hr (by decide) | exact Nat.lt_of_not_le ‹_›

theorem finest?_eq_none_iff {ms : Nat} : finest? ms = none ↔ tenMinutes.maxMs < ms := by
  unfold finest?
  split_ifs with h₁ h₂ h₃ h₄ <;> simp_all [maxMs, stepMs] <;> omega

end Resolution

namespace TransitionTime

/-- The duration, an unknown one being longer than all others. -/
def duration (t : TransitionTime) : ENat :=
  match t.millis? with
  | some ms => ms
  | none => ⊤

/-- The duration that is read after one in milliseconds was written. -/
def rounded (ms : Nat) : ENat := (ofMillis ms).duration

theorem toNat_pack (r : Resolution) {steps : Nat} (h : steps ≤ 62) :
    (pack r steps).raw.toNat = 64 * r.code + steps := by
  have : r.code ≤ 3 := by cases r <;> decide
  rw [pack, UInt8.toNat_ofNat', Nat.mod_eq_of_lt (by omega)]

theorem resolution_pack (r : Resolution) {steps : Nat} (h : steps ≤ 62) :
    (pack r steps).resolution = r := by
  rw [resolution, toNat_pack r h, show (64 * r.code + steps) / 64 = r.code by omega,
    Resolution.ofCode_code]

theorem millis?_pack (r : Resolution) {steps : Nat} (h : steps ≤ 62) :
    (pack r steps).millis? = some (steps * r.stepMs) := by
  have hsteps : (pack r steps).steps = steps := by
    rw [TransitionTime.steps, toNat_pack r h]
    omega
  have hknown : (pack r steps).isUnknown = false := by
    rw [isUnknown, hsteps, decide_eq_false_iff_not, unknownSteps]
    omega
  rw [millis?, hknown, hsteps, resolution_pack r h]
  rfl

theorem steps_le_of_finest? {ms : Nat} {r : Resolution} (h : Resolution.finest? ms = some r) :
    ms / r.stepMs ≤ 62 :=
  Nat.div_le_of_le_mul (Nat.mul_comm 62 _ ▸ Resolution.le_maxMs_of_finest? h)

theorem millis?_ofMillis {ms : Nat} (h : ms ≤ Resolution.tenMinutes.maxMs) :
    ∃ read, (ofMillis ms).millis? = some read ∧ read ≤ ms ∧
      ms < read + (ofMillis ms).resolution.stepMs := by
  cases hr : Resolution.finest? ms with
  | none => exact absurd h (Nat.not_le.mpr (Resolution.finest?_eq_none_iff.mp hr))
  | some r =>
    have hsteps := steps_le_of_finest? hr
    have hpos : 0 < r.stepMs := by cases r <;> decide
    have hpack : ofMillis ms = pack r (ms / r.stepMs) := by rw [ofMillis, hr]
    rw [hpack, millis?_pack r hsteps, resolution_pack r hsteps]
    exact ⟨_, rfl, Nat.div_mul_le_self .., Nat.lt_div_mul_add hpos⟩

theorem ofMillis_of_lt {ms : Nat} (h : Resolution.tenMinutes.maxMs < ms) :
    ofMillis ms = unknown := by
  rw [ofMillis, Resolution.finest?_eq_none_iff.mpr h]

theorem rounded_of_finest? {ms : Nat} {r : Resolution} (h : Resolution.finest? ms = some r) :
    rounded ms = (ms / r.stepMs * r.stepMs : Nat) := by
  rw [rounded, duration, ofMillis, h]
  dsimp only
  rw [millis?_pack r (steps_le_of_finest? h)]

theorem rounded_of_lt {ms : Nat} (h : Resolution.tenMinutes.maxMs < ms) : rounded ms = ⊤ := by
  rw [rounded, ofMillis_of_lt h]
  rfl

/-- The longer duration `a` left 60 steps of `r` when it was written in coarser steps, while the
shorter one `b` was written in 61 or 62 of them. -/
structure Rises (a b : ENat) (r : Resolution) : Prop where
  coarser : r ≠ .tenMinutes
  before : a = (60 * r.stepMs : Nat)
  after : b = (61 * r.stepMs : Nat) ∨ b = (62 * r.stepMs : Nat)

/-- Of a duration that takes coarser steps than `r`, 60 steps of `r` are left or more than `r`
can count. -/
theorem steps_left {ms : Nat} {r r' : Resolution} (h : Resolution.finest? ms = some r')
    (hr : r.stepMs < r'.stepMs) :
    ms / r'.stepMs * r'.stepMs = 60 * r.stepMs ∨ r.maxMs < ms / r'.stepMs * r'.stepMs := by
  have hfiner (r : Resolution) (hr : r.stepMs < r'.stepMs) : r.maxMs < ms :=
    Resolution.maxMs_lt_of_finest? h hr
  have h₁ := hfiner .tenthSecond
  have h₂ := hfiner .second
  have h₃ := hfiner .tenSeconds
  clear hfiner h
  cases r' <;> cases r <;> simp_all [Resolution.stepMs, Resolution.maxMs] <;> omega

/-- The shorter of two durations never reads longer, unless it is the first to be written in finer
steps. -/
theorem rounded_le {a b : Nat} (h : b ≤ a) :
    rounded b ≤ rounded a ∨
      ∃ r, r.maxMs < a ∧ b ≤ r.maxMs ∧ Rises (rounded a) (rounded b) r := by
  cases ha : Resolution.finest? a with
  | none =>
    rw [rounded_of_lt (Resolution.finest?_eq_none_iff.mp ha)]
    exact .inl le_top
  | some ra =>
    have hle := Resolution.le_maxMs_of_finest? ha
    cases hb : Resolution.finest? b with
    | none =>
      have hlt := Resolution.finest?_eq_none_iff.mp hb
      have : ra.maxMs ≤ Resolution.tenMinutes.maxMs := by cases ra <;> decide
      omega
    | some rb =>
      have hle' := Resolution.le_maxMs_of_finest? hb
      rw [rounded_of_finest? ha, rounded_of_finest? hb, Nat.cast_le]
      refine or_iff_not_imp_left.mpr fun hgt => ⟨rb, ?_⟩
      -- Equal steps round monotonically, and the shorter duration never takes coarser ones.
      have hcoarser : rb.stepMs < ra.stepMs := by
        refine Nat.lt_of_not_le fun hstep => hgt ?_
        rcases Nat.eq_or_lt_of_le hstep with heq | hlt
        · rw [heq]
          exact Nat.mul_le_mul_right _ (Nat.div_le_div_right h)
        · have := Resolution.maxMs_lt_of_finest? hb hlt
          omega
      have hdiv : b / rb.stepMs * rb.stepMs ≤ b := Nat.div_mul_le_self ..
      have hleft := (steps_left ha hcoarser).resolve_right (by omega)
      refine ⟨Resolution.maxMs_lt_of_finest? ha hcoarser, hle', ?_, by rw [hleft], ?_⟩
      · rintro rfl
        revert hcoarser
        cases ra <;> decide
      · rw [hleft] at hgt
        rw [Nat.cast_inj, Nat.cast_inj]
        cases rb <;> simp_all [Resolution.stepMs, Resolution.maxMs] <;> omega

end TransitionTime

end MeshNode
