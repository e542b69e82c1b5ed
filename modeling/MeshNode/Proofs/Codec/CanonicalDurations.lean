import MeshNode.Proofs.Codec.WireDurations

/-! # Canonical durations

A byte is canonical if writing the duration that it stands for gives that byte again. Steps are
chosen for a duration before it is rounded down to them. So what is written of one just above the
reach of some steps can come within that reach by the rounding, and then it is not canonical. What
is written of a duration that was read always is.
-/

namespace MeshNode

namespace Resolution

variable {r r' : Resolution} {ms : Nat}

theorem stepMs_pos (r : Resolution) : 0 < r.stepMs := by cases r <;> decide

theorem stepMs_injective : Function.Injective stepMs := by
  intro r r'
  cases r <;> cases r' <;> decide

theorem stepMs_dvd (h : r.stepMs ≤ r'.stepMs) : r.stepMs ∣ r'.stepMs := by
  revert h
  cases r <;> cases r' <;> decide

theorem code_injective : Function.Injective code := by
  intro r r' h
  rw [← ofCode_code r, h, ofCode_code]

theorem stepMs_le_of_finest? (h : finest? ms = some r) (hr : ms ≤ r'.maxMs) :
    r.stepMs ≤ r'.stepMs :=
  Nat.le_of_not_lt fun hlt => Nat.not_lt.mpr hr (maxMs_lt_of_finest? h hlt)

theorem exists_finest? (h : ms ≤ r'.maxMs) : ∃ r, finest? ms = some r := by
  refine Option.ne_none_iff_exists'.mp fun hn => ?_
  have : r'.maxMs ≤ tenMinutes.maxMs := by cases r' <;> decide
  have := finest?_eq_none_iff.mp hn
  omega

theorem finest?_eq_some_iff :
    finest? ms = some r ↔
      ms ≤ r.maxMs ∧ ∀ r' : Resolution, r'.stepMs < r.stepMs → r'.maxMs < ms := by
  constructor
  · exact fun h => ⟨le_maxMs_of_finest? h, fun _ => maxMs_lt_of_finest? h⟩
  · rintro ⟨hle, hfiner⟩
    obtain ⟨r', h'⟩ := exists_finest? hle
    have hstep : r'.stepMs = r.stepMs := by
      refine Nat.le_antisymm (stepMs_le_of_finest? h' hle) (Nat.le_of_not_lt fun hlt => ?_)
      exact Nat.not_lt.mpr (le_maxMs_of_finest? h') (hfiner r' hlt)
    rw [h', stepMs_injective hstep]

end Resolution

namespace TransitionTime

variable {t : TransitionTime} {r r' : Resolution} {ms a b : Nat}

theorem pack_inj (ha : a ≤ 62) (hb : b ≤ 62) : pack r a = pack r' b ↔ r = r' ∧ a = b := by
  constructor
  · intro h
    have hraw : 64 * r.code + a = 64 * r'.code + b := by
      rw [← toNat_pack r ha, h, toNat_pack r' hb]
    exact ⟨Resolution.code_injective (by omega), by omega⟩
  · rintro ⟨rfl, rfl⟩
    rfl

theorem ofMillis_of_finest? (h : Resolution.finest? ms = some r) :
    ofMillis ms = pack r (ms / r.stepMs) := by
  rw [ofMillis, h]

theorem millis?_ofMillis_of_finest? (h : Resolution.finest? ms = some r) :
    (ofMillis ms).millis? = some (ms / r.stepMs * r.stepMs) := by
  rw [ofMillis_of_finest? h, millis?_pack r (steps_le_of_finest? h)]

theorem millis_of_millis? (h : t.millis? = some ms) : t.millis = ms := by
  rw [millis, h, Option.getD_some]

theorem isUnknown_of_millis? (h : t.millis? = some ms) : t.isUnknown = false := by
  cases hu : t.isUnknown with
  | true => simp [millis?, hu] at h
  | false => rfl

theorem isCanonical_iff (h : t.millis? = some ms) : t.isCanonical = true ↔ ofMillis ms = t := by
  rw [isCanonical, h, decide_eq_true_iff]

/-! ## What is written of a duration that was read -/

theorem steps_of_millis? (h : t.millis? = some ms) :
    t.steps ≤ 62 ∧ ms = t.steps * t.resolution.stepMs := by
  have hu := isUnknown_of_millis? h
  have hlt : t.steps < 64 := Nat.mod_lt _ (by decide)
  have hne : t.steps ≠ 63 := of_decide_eq_false hu
  exact ⟨by omega, by simpa [millis?, hu, eq_comm] using h⟩

/-- A duration that was read is written without loss: the steps that it takes divide those that it
was read in. -/
theorem millis?_ofMillis_of_millis? (h : t.millis? = some ms) :
    (ofMillis ms).millis? = some ms := by
  obtain ⟨hle, rfl⟩ := steps_of_millis? h
  have hmax : t.steps * t.resolution.stepMs ≤ t.resolution.maxMs := Nat.mul_le_mul_right _ hle
  obtain ⟨r, hr⟩ := Resolution.exists_finest? hmax
  have hdvd : r.stepMs ∣ t.steps * t.resolution.stepMs :=
    (Resolution.stepMs_dvd (Resolution.stepMs_le_of_finest? hr hmax)).mul_left _
  rw [millis?_ofMillis_of_finest? hr, Nat.div_mul_cancel hdvd]

theorem isCanonical_ofMillis_of_millis? (h : t.millis? = some ms) :
    (ofMillis ms).isCanonical = true :=
  (isCanonical_iff (millis?_ofMillis_of_millis? h)).mpr rfl

/-! ## What is written of any duration -/

/-- What is written of a duration is canonical as long as rounding leaves the duration beyond the
reach of finer steps. -/
theorem isCanonical_ofMillis_iff (h : Resolution.finest? ms = some r) :
    (ofMillis ms).isCanonical = true ↔
      Resolution.finest? (ms / r.stepMs * r.stepMs) = some r := by
  have hmax : ms / r.stepMs * r.stepMs ≤ r.maxMs :=
    (Nat.div_mul_le_self ..).trans (Resolution.le_maxMs_of_finest? h)
  obtain ⟨r', hr'⟩ := Resolution.exists_finest? hmax
  rw [isCanonical_iff (millis?_ofMillis_of_finest? h), ofMillis_of_finest? hr',
    ofMillis_of_finest? h, pack_inj (steps_le_of_finest? hr') (steps_le_of_finest? h), hr',
    Option.some.injEq]
  constructor
  · exact And.left
  · rintro rfl
    exact ⟨rfl, Nat.mul_div_cancel _ (Resolution.stepMs_pos r')⟩

/-- Beyond the reach of some steps, but not yet a whole number of the next coarser ones beyond
it. -/
def PastReach (ms : Nat) : Prop :=
  6200 < ms ∧ ms < 7000 ∨ 62000 < ms ∧ ms < 70000 ∨ 620000 < ms ∧ ms < 1200000

/-- Only just past the reach of finer steps rounding brings a duration back to it. -/
theorem finest?_rounded_iff (h : Resolution.finest? ms = some r) :
    Resolution.finest? (ms / r.stepMs * r.stepMs) = some r ↔ ¬ PastReach ms := by
  obtain ⟨hmax, hfiner⟩ := Resolution.finest?_eq_some_iff.mp h
  rw [Resolution.finest?_eq_some_iff, and_iff_right ((Nat.div_mul_le_self ..).trans hmax),
    PastReach]
  have hsecond := hfiner .second
  have htenSeconds := hfiner .tenSeconds
  constructor
  · intro hr
    have h₁ := hr .tenthSecond
    have h₂ := hr .second
    have h₃ := hr .tenSeconds
    cases r <;> simp only [Resolution.maxMs, Resolution.stepMs] at * <;> omega
  · intro hp r' hr
    have := hfiner r' hr
    cases r <;> cases r' <;> simp only [Resolution.maxMs, Resolution.stepMs] at * <;> omega

/-- If rounding brings a duration back within the reach of finer steps, it leaves 60 of them. -/
theorem ofMillis_rounded (h : Resolution.finest? ms = some r)
    (hr : Resolution.finest? (ms / r.stepMs * r.stepMs) = some r') (hne : r' ≠ r) :
    ofMillis (ms / r.stepMs * r.stepMs) = pack r' 60 := by
  have hmax := (Nat.div_mul_le_self ms r.stepMs).trans (Resolution.le_maxMs_of_finest? h)
  have hlt : r'.stepMs < r.stepMs := (Resolution.stepMs_le_of_finest? hr hmax).lt_of_ne fun heq =>
    hne (Resolution.stepMs_injective heq)
  have hle := Resolution.le_maxMs_of_finest? hr
  have hleft := (steps_left h hlt).resolve_right (Nat.not_lt.mpr hle)
  rw [ofMillis_of_finest? hr, hleft, Nat.mul_div_cancel _ (Resolution.stepMs_pos r')]

/-- What is written of a duration is not the reserved byte, and it is canonical, so that it is
written again as it is, exactly unless the duration is just past the reach of some steps. Then it is
written again as 60 of those steps. Either way the duration that was read is kept, and what is
written of it is canonical. -/
theorem canonical_unless_pastReach (h : ms ≤ 37200000) :
    (ofMillis ms).isUnknown = false ∧
      ((ofMillis ms).isCanonical = true ↔ ¬ PastReach ms) ∧
      (ofMillis (ofMillis ms).millis = ofMillis ms ↔ ¬ PastReach ms) ∧
      (PastReach ms → ∃ r, ofMillis (ofMillis ms).millis = pack r 60) ∧
      (ofMillis (ofMillis ms).millis).millis? = some (ofMillis ms).millis ∧
      (ofMillis (ofMillis ms).millis).isCanonical = true := by
  obtain ⟨r, hr⟩ := Resolution.exists_finest? (show ms ≤ Resolution.maxMs .tenMinutes from h)
  have hread := millis?_ofMillis_of_finest? hr
  have hcanonical := (isCanonical_ofMillis_iff hr).trans (finest?_rounded_iff hr)
  rw [millis_of_millis? hread]
  refine ⟨isUnknown_of_millis? hread, hcanonical, (isCanonical_iff hread).symm.trans hcanonical, ?_,
    millis?_ofMillis_of_millis? hread, isCanonical_ofMillis_of_millis? hread⟩
  intro hp
  obtain ⟨r', hr'⟩ := Resolution.exists_finest?
    ((Nat.div_mul_le_self ms r.stepMs).trans (Resolution.le_maxMs_of_finest? hr))
  refine ⟨r', ofMillis_rounded hr hr' fun heq => ?_⟩
  exact (finest?_rounded_iff hr).mp (heq ▸ hr') hp

/-- A millisecond past the reach of the finest steps, six seconds are written of a duration and then
60 tenths of a second. -/
theorem rewritten_past_reach :
    ¬ ∀ ms ≤ 37200000, (ofMillis ms).isUnknown = false ∧ (ofMillis ms).isCanonical = true ∧
      ofMillis (ofMillis ms).millis = ofMillis ms := by
  intro h
  obtain ⟨-, hcanonical, -⟩ := h 6201 (by decide)
  revert hcanonical
  decide

theorem canonical_unless_pastReach_6201 :
    6201 ≤ 37200000 ∧ PastReach 6201 ∧ (ofMillis 6201).isUnknown = false ∧
      (ofMillis 6201).isCanonical = false ∧ ofMillis (ofMillis 6201).millis ≠ ofMillis 6201 := by
  have hp : PastReach 6201 := .inl (by decide)
  have hle : 6201 ≤ 37200000 := by decide
  obtain ⟨hknown, hcanonical, hagain, -⟩ := canonical_unless_pastReach hle
  refine ⟨hle, hp, hknown, ?_, fun h => hagain.mp h hp⟩
  exact Bool.eq_false_iff.mpr fun h => hcanonical.mp h hp

end TransitionTime

end MeshNode
