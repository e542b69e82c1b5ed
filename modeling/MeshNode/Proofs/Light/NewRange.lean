import MeshNode.Proofs.Light.LampsWithinRange

/-! # What a new range does

A new range takes effect on what the lamp settles on: a lamp that is going to a lightness within it
goes on as it is, and any other one is at the nearer end of it at once. So the lamp lands within the
range that it has by then, but until then it may show a lightness from outside.
-/

namespace MeshNode

def LightMemory.ranged (memory : LightMemory) (lo hi : Lightness) : LightMemory :=
  { memory with rangeMin := lo, rangeMax := hi }

namespace Node

variable {n n' : Node} {e : UInt8} {i : Instance} {lo hi l : Lightness}

/-! ## Where a lamp lands -/

theorem IsBuilt.aims (hn : n.IsBuilt) (hs : Steps (HelpersNoRestore True) n n')
    (hi : n'.get? e .lightness = some i) :
    ∃ g, i.target = .lightness g ∧ (g = 0 ∨ i.light.rangeMin ≤ g ∧ g ≤ i.light.rangeMax) ∧
      (i.phase = .idle → i.present = .lightness g) := by
  obtain ⟨hlit, hsteady⟩ := hn.lit_steps hs hi
  have hk := hlit.keeps hi
  obtain ⟨g, hg⟩ := lightness_of_model (hsteady.typed e .lightness i hi).target
  have hwithin : i.target.IsWithin i.light.range := hk.target (.inl trivial)
  rw [hg] at hwithin
  refine ⟨g, hg, hwithin, fun hidle => ?_⟩
  exact (hk.idle (Instance.phase_eq_idle_iff.mp hidle)).trans hg

/-- In any run in which only helpers register bindings and nothing is restored or reset, the target
of a lamp is zero or within its range at every step, and it is what the lamp shows once settled. So
however the range changes in the meantime, the step that settles the lamp leaves it within the range
that it has then. -/
theorem lands_within_range (hn : n.IsBuilt) (e : UInt8) :
    (∀ ops, (∀ link rule, .call (.bind link rule) ∉ ops) → (∀ s, .call (.restore s) ∉ ops) →
      .call .reset ∉ ops → Steps (HelpersNoRestore True) n (n.run ops)) ∧
    (∀ n' i, Steps (HelpersNoRestore True) n n' → n'.get? e .lightness = some i →
      ∃ g, i.target = .lightness g ∧ (g = 0 ∨ i.light.rangeMin ≤ g ∧ g ≤ i.light.rangeMax) ∧
        (i.phase = .idle → i.present = .lightness g)) ∧
    ∀ n₁ n₂ i j, Steps (HelpersNoRestore True) n n₁ → Step (HelpersNoRestore True) n₁ n₂ →
      n₁.get? e .lightness = some i → i.phase ≠ .idle → n₂.get? e .lightness = some j →
        j.phase = .idle → ∃ l, j.present = .lightness l ∧
          (l = 0 ∨ j.light.rangeMin ≤ l ∧ l ≤ j.light.rangeMax) := by
  refine ⟨fun ops hbind hrestore hreset => ?_, fun n' i hs hi => hn.aims hs hi, ?_⟩
  · refine run_steps (admits_helpersNoRestore hbind hrestore ?_ (List.Subset.refl ops) n)
    exact fun _ => hreset
  · intro n₁ n₂ i j hs hstep _ _ hj hidle
    obtain ⟨l, -, hwithin, hshown⟩ := hn.aims (hs.tail hstep) hj
    exact ⟨l, hshown hidle, hwithin⟩

/-- A lamp waits and then fades to a lightness that two ranges are drawn around on the way, and it
is under way to another one when a range leaves that out. -/
theorem lands_within_range_lamp :
    let ops : List Operation :=
      [.call (.bindLightnessToLevel 0 0),
        .call (.request (.application 0 (.lightness 40000) 3000 4)), .advance 10,
        .call (.setLightRange 0 10000 50000), .advance 1000, .call (.setLightRange 0 30000 45000),
        .advance 3000, .call (.request (.application 0 (.lightness 31000) 2000 0)), .advance 100]
    let n := lamp.run ops
    let n' := n.handle (.setLightRange 0 20000 25000)
    lamp.IsBuilt ∧ Steps (HelpersNoRestore True) lamp n ∧ Step (HelpersNoRestore True) n n' ∧
      ∃ i j, n.get? 0 .lightness = some i ∧ i.phase = .transitioning ∧
        i.present = .lightness 40000 ∧ i.target = .lightness 31000 ∧
        n'.get? 0 .lightness = some j ∧ j.phase = .idle ∧ j.light.range = (20000, 25000) ∧
        j.target = j.present ∧ ∃ l, j.present = .lightness l ∧
          (l = 0 ∨ j.light.rangeMin ≤ l ∧ l ≤ j.light.rangeMax) := by
  intro ops n n'
  obtain ⟨hruns, haims, hlands⟩ := lands_within_range isBuilt_lamp 0
  have hsteps : Steps (HelpersNoRestore True) lamp n :=
    hruns ops (by simp [ops]) (by simp [ops]) (by simp [ops])
  have hstep : Step (HelpersNoRestore True) n n' := by
    refine .call _ ⟨?_, ?_, ?_⟩
    all_goals simp [HelpersOnly]
  have hbefore : (n.get? 0 .lightness).map (fun i => (i.phase, i.present, i.target)) =
      some (.transitioning, .lightness 40000, .lightness 31000) := by decide +kernel
  have hafter : (n'.get? 0 .lightness).map (fun j => (j.phase, j.light.range)) =
      some (.idle, (20000, 25000)) := by decide +kernel
  obtain ⟨i, hi, hi'⟩ := Option.map_eq_some_iff.mp hbefore
  obtain ⟨j, hj, hj'⟩ := Option.map_eq_some_iff.mp hafter
  simp only [Prod.mk.injEq] at hi' hj'
  obtain ⟨hbusy, hpresent, htarget⟩ := hi'
  obtain ⟨hidle, hrange⟩ := hj'
  obtain ⟨g, hg, -, hshown⟩ := haims n' j (hsteps.tail hstep) hj
  refine ⟨isBuilt_lamp, hsteps, hstep, i, j, hi, hbusy, hpresent, htarget, hj, hidle, hrange, ?_,
    ?_⟩
  · rw [hg, hshown hidle]
  · exact hlands n n' i j hsteps hstep hi (by simp [hbusy]) hj hidle

/-! ## What a lamp shows at once -/

theorem present?_retuned (n : Node) (e : UInt8) (light : LightMemory) (e' : UInt8) (m' : Model) :
    (n.retuned e light).present? e' m' = n.present? e' m' := by
  have hpresent (n : Node) : n.present? e' m' = (n.watch e' m').1.map Course.present := by
    rw [watch, Option.map_map]
    rfl
  rw [hpresent, hpresent, watch_retuned]

/-- The lamp takes up nothing more when the bindings have followed it: because they are calm, or
because it turns out so. -/
def KeepsOff (n n' : Node) (e : UInt8) : Prop :=
  n.IsCalm ∨ (n'.requestsFor e .lightness).length ≤ (n.requestsFor e .lightness).length + 1

theorem present?_request (hn : n.Typed) (hi : n.get? e .lightness = some i)
    (hoff : n.KeepsOff (n.request (.application e (.lightness l) 0 0)).1 e) :
    (n.request (.application e (.lightness l) 0 0)).1.present? e .lightness =
      some (.lightness (i.light.clamp l)) := by
  rw [request_lightness hi] at hoff ⊢
  -- What the lamp does is over before the bindings follow, and they leave it as it is.
  suffices h : ∃ c : Course,
      ((n.start follow e .lightness (.lightness l) 0 0 .application none).watch e .lightness).1 =
        some (c.finish (.lightness (i.light.clamp l))) by
    obtain ⟨c, hc⟩ := h
    obtain ⟨j, hj, hjc⟩ := Option.map_eq_some_iff.mp hc
    exact Option.map_eq_some_iff.mpr ⟨j, hj, congrArg Course.present hjc⟩
  rcases hoff with hcalm | hlen
  · obtain ⟨n₁, hw, hcalms⟩ := start_writes (v := .lightness l) (t := 0) (d := 0)
      (s := .application) (isAftermath_calms .lightness)
      (fun _ n w hn hc => calms_follow hn hc e w) none hi
    have htyped := hw.typed hn (Course.typed_finish _ rfl)
    have hsame := (hcalms htyped (hw.isCalm hcalm)).watch e
    exact ⟨_, (congrArg Prod.fst hsame).trans hw.onCourse.course⟩
  · obtain ⟨n₁, hw, hheeds⟩ := start_writes (v := .lightness l) (t := 0) (d := 0)
      (s := .application) isAftermath_keepsToRequests
        (fun _ n w => keepsToRequests_follow n e .lightness w) none hi
    have hfew := (hheeds e .lightness).suffix.eq_of_length_le (by rw [hw.requests]; exact hlen)
    have hsame := (hheeds e .lightness).watch hfew.symm
    exact ⟨_, (congrArg Prod.fst hsame).trans hw.onCourse.course⟩

theorem setLightRange_eq (hget : n.get? e .lightness = some i)
    (hrange : LightMemory.isRange lo hi = true) (hl : i.settled = .lightness l) :
    n.setLightRange e lo hi =
      if (i.light.ranged lo hi).clamp l = l then
        ((n.retuned e (i.light.ranged lo hi)).save e .lightness).reportLightSetting e .success
      else
        (n.retuned e (i.light.ranged lo hi)).request
          (.application e (.lightness ((i.light.ranged lo hi).clamp l)) 0 0) := by
  simp only [setLightRange, hget, if_pos hrange, hl]
  rfl

/-- A lamp that settles within its new range shows what it showed before, and any other one shows
the end of the range that is nearer to where it was to settle. -/
theorem present?_setLightRange (hn : n.Typed) (hget : n.get? e .lightness = some i)
    (hrange : LightMemory.isRange lo hi = true) (hl : i.settled = .lightness l)
    (hoff : n.KeepsOff (n.setLightRange e lo hi).1 e) :
    (n.setLightRange e lo hi).1.present? e .lightness =
      some (if (i.light.ranged lo hi).clamp l = l then i.present
        else .lightness ((i.light.ranged lo hi).clamp l)) := by
  rw [setLightRange_eq hget hrange hl] at hoff ⊢
  split
  · let retuned := n.retuned e (i.light.ranged lo hi)
    have htells : retuned.Tells ((retuned.save e .lightness).reportLightSetting e .success).1 :=
      (tells_save retuned e .lightness).trans (tells_emit _ _)
    calc ((retuned.save e .lightness).reportLightSetting e .success).1.present? e .lightness
        = retuned.present? e .lightness :=
          congrArg (Option.map Instance.present) (htells.alike.get? e .lightness)
      _ = n.present? e .lightness := present?_retuned n e _ e .lightness
      _ = some i.present := by rw [present?, hget, Option.map_some]
  next hout =>
    rw [if_neg hout] at hoff
    have hset : (n.retuned e (i.light.ranged lo hi)).get? e .lightness =
        some { i with light := i.light.ranged lo hi } := by
      rw [retuned, get?_modify_self, hget]
      rfl
    rw [present?_request ((evolves_retuned n e _).typed hn) hset hoff]
    -- The end of the range is within it.
    exact congrArg (some ∘ Value.lightness)
      (LightMemory.clamp_eq_self_iff.mpr (LightMemory.isWithin_clamp hrange l))

/-- A valid range is taken up by every lamp. A lamp at rest goes to the nearer end of it at once if
it is outside. A lamp under way to a lightness within the range shows what it showed before, be it
outside, and one under way to elsewhere is at once at the end that is nearer to where it was going,
wherever it was. So what is shown is what was shown, pulled into the range, exactly if the lamp is
at rest, or both ends of the rest of its way are within the range, or the one that it is going to is
not and both are pulled to the same lightness. -/
theorem present_after_range (hn : n.IsReached) (hget : n.get? e .lightness = some i)
    (hrange : LightMemory.isRange lo hi = true) :
    (n.setLightRange e lo hi).2 = .success ∧
      (n.KeepsOff (n.setLightRange e lo hi).1 e → ∃ p g p', i.present = .lightness p ∧
        i.target = .lightness g ∧
        (n.setLightRange e lo hi).1.present? e .lightness = some (.lightness p') ∧
        (i.phase = .idle → p' = (i.light.ranged lo hi).clamp p) ∧
        (i.phase ≠ .idle → i.target.IsWithin (lo, hi) → p' = p) ∧
        (i.phase ≠ .idle → ¬ i.target.IsWithin (lo, hi) → p' = (i.light.ranged lo hi).clamp g) ∧
        (p' = (i.light.ranged lo hi).clamp p ↔
          i.phase = .idle ∨ (i.target.IsWithin (lo, hi) ∧ i.present.IsWithin (lo, hi)) ∨
            (¬ i.target.IsWithin (lo, hi) ∧
              (i.light.ranged lo hi).clamp g = (i.light.ranged lo hi).clamp p))) := by
  have htyped := hn.sound.typed
  have ht := htyped e .lightness i hget
  obtain ⟨l, hl⟩ := settled_lightness ht
  refine ⟨?_, fun hoff => ?_⟩
  · rw [setLightRange_eq hget hrange hl]
    split
    · rfl
    · exact check_retuned hget _ _
  · obtain ⟨p, hp⟩ := lightness_of_model ht.present
    obtain ⟨g, hg⟩ := lightness_of_model ht.target
    have hshown := present?_setLightRange htyped hget hrange hl hoff
    have hwithin (x : Lightness) :
        (Value.lightness x).IsWithin (lo, hi) ↔ (i.light.ranged lo hi).clamp x = x := by
      have hclamp : (i.light.ranged lo hi).clamp x = x ↔ _ := LightMemory.clamp_eq_self_iff
      exact hclamp.symm
    rw [settled_eq] at hl
    rw [hp] at hshown
    rw [hp, hg, hwithin p, hwithin g]
    -- The value to settle on is the present one at rest and the target on the way.
    by_cases hidle : i.phase = .idle
    · rw [if_neg (Instance.phase_eq_idle_iff.mp hidle), hp] at hl
      obtain rfl := Value.lightness.inj hl
      refine ⟨p, g, (i.light.ranged lo hi).clamp p, rfl, rfl, ?_, fun _ => rfl, ?_⟩
      · rw [hshown]
        split
        next hin => rw [hin]
        next => rfl
      · simp [hidle]
    · rw [if_pos (not_not.mp (hidle ∘ Instance.phase_eq_idle_iff.mpr)), hg] at hl
      obtain rfl := Value.lightness.inj hl
      by_cases hin : (i.light.ranged lo hi).clamp g = g
      · rw [if_pos hin] at hshown
        refine ⟨p, g, p, rfl, rfl, hshown, ?_⟩
        simp [hidle, hin, eq_comm]
      · rw [if_neg hin] at hshown
        refine ⟨p, g, _, rfl, rfl, hshown, ?_⟩
        simp [hidle, hin]

/-- A lamp on its way from below the new range to beyond it is at the far end at once. -/
theorem present_after_range_lamp :
    let n := lamp.run [.call (.bindLightnessToLevel 0 0),
      .call (.request (.application 0 (.lightness 40000) 4000 0)), .advance 1000]
    n.IsReached ∧ LightMemory.isRange 20000 30000 = true ∧
      n.KeepsOff (n.setLightRange 0 20000 30000).1 0 ∧
      n.present? 0 .lightness = some (.lightness 10000) ∧
      (n.setLightRange 0 20000 30000).2 = .success ∧
      (n.setLightRange 0 20000 30000).1.present? 0 .lightness = some (.lightness 30000) := by
  intro n
  have hn : n.IsReached := ⟨lamp, _, isBuilt_lamp, rfl⟩
  have hoff : n.KeepsOff (n.setLightRange 0 20000 30000).1 0 := by
    refine .inl (isBuilt_lamp.steady_run fun link rule => ?_).isCalm
    simp
  have hlamp : (n.get? 0 .lightness).map (fun i => (i.phase, i.present, i.target, i.light)) =
      some (.transitioning, .lightness 10000, .lightness 40000, ⟨0, 10000, 1, 65535⟩) := by
    decide +kernel
  obtain ⟨i, hget, hparts⟩ := Option.map_eq_some_iff.mp hlamp
  simp only [Prod.mk.injEq] at hparts
  obtain ⟨hphase, hpresent, htarget, hlight⟩ := hparts
  have hrange : LightMemory.isRange 20000 30000 = true := by decide
  obtain ⟨hstatus, hshows⟩ := present_after_range hn hget hrange
  obtain ⟨p, g, p', -, hg, hshown, -, -, hout, -⟩ := hshows hoff
  have hbeyond : ¬ i.target.IsWithin (20000, 30000) := by
    rw [htarget]
    rintro (hzero | ⟨-, hle⟩)
    · exact absurd hzero (by decide)
    · exact absurd hle (by decide)
  obtain rfl := Value.lightness.inj (htarget.symm.trans hg)
  have hend : p' = 30000 := by
    rw [hout (by simp [hphase]) hbeyond, hlight]
    decide
  refine ⟨hn, hrange, hoff, ?_, hstatus, by rw [hshown, hend]⟩
  rw [present?, hget, Option.map_some, hpresent]

/-- A lamp on its way from below the new range into it stays below it. -/
theorem below_range_lamp :
    let n := lamp.run
      [.call (.request (.application 0 (.lightness 20000) 4000 0)), .advance 1000]
    n.IsReached ∧ LightMemory.isRange 10000 50000 = true ∧
      n.present? 0 .lightness = some (.lightness 5000) ∧
      (LightMemory.initial.ranged 10000 50000).clamp 5000 = 10000 ∧
      (n.setLightRange 0 10000 50000).2 = .success ∧
      (n.setLightRange 0 10000 50000).1.present? 0 .lightness = some (.lightness 5000) := by
  intro n
  exact ⟨⟨lamp, _, isBuilt_lamp, rfl⟩, by decide, by decide +kernel, by decide, by decide +kernel,
    by decide +kernel⟩

end Node

end MeshNode
