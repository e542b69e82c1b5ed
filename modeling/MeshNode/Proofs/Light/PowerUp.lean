import MeshNode.Proofs.Bindings.SeparateTargets
import MeshNode.Proofs.Light.LampsWithinRange
import MeshNode.Proofs.Bindings.NestingDepth
import MeshNode.Proofs.Node.WellFormedInstances

/-! # Powering up

At power-up every server of a behaviour has the lamps that are bound to it go to the lightness that
the behaviour selects. The lamp takes it as far as its range lets it; the level on the same element
takes it as it is.
-/

namespace MeshNode

def Binding.powerUp (p x : UInt8) : Binding Rule :=
  ⟨⟨.onPowerUp, .lightnessActual, p, x⟩, Rule.onPowerUpToLightness⟩

namespace Node

variable {n n₁ n' : Node} {p x : UInt8} {i k : Instance} {l : Lightness} {behaviour : OnPowerUp}
  {F : Follow} {b : Binding Rule}

/-! ## The binding of a lamp -/

/-- A lamp has gone to a lightness, and the level on its element has gone along. -/
structure Lights (n : Node) (x : UInt8) (i : Instance) (l : Lightness) (n' : Node) : Prop where
  bindings : n'.bindings = n.bindings
  lamp : ∃ j, n'.get? x .lightness = some j ∧ i.Settles (.lightness l) j
  level : ∀ k, n.get? x .level = some k →
    ∃ k', n'.get? x .level = some k' ∧ k.Settles (.level l.toLevel) k'

theorem Lights.keepsElement (h : n.Lights x i l n₁) (hl : n₁.KeepsElement x n') :
    n.Lights x i l n' where
  bindings := hl.bindings.trans h.bindings
  lamp := by
    rw [hl.get?]
    exact h.lamp
  level := by
    rw [hl.get?]
    exact h.level

theorem KeepsElement.lights (hl : n.KeepsElement x n₁) (h : n₁.Lights x i l n') :
    n.Lights x i l n' where
  bindings := h.bindings.trans hl.bindings
  lamp := h.lamp
  level := by
    rw [← hl.get?]
    exact h.level

theorem onPowerUpToLightness_eq {elements : List Element}
    (hi : instance? elements x .lightness = some i)
    (hl : Rule.powerUpLightness? i behaviour = some l) :
    Rule.onPowerUpToLightness elements x (.onPowerUp behaviour) = .bound x (.lightness l) ::
      if (instance? elements x .level).isSome then [.bound x (.level l.toLevel)] else [] := by
  simp only [Rule.onPowerUpToLightness, hi, hl]

theorem lights_obey (hl : Rule.powerUpLightness? i behaviour = some l)
    (hi : n.get? x .lightness = some i) :
    n.Lights x i l (obey F (.onPowerUp behaviour) n (.powerUp p x)) := by
  let told := n.note (.followed (Binding.powerUp p x).link (.onPowerUp behaviour) n.depth)
  let lit := told.carryOut F (.bound x (.lightness l))
  have hrule : (Binding.powerUp p x).rule told.elements (Binding.powerUp p x).link.target
      (.onPowerUp behaviour) = .bound x (.lightness l) ::
        if (n.get? x .level).isSome then [.bound x (.level l.toLevel)] else [] :=
    onPowerUpToLightness_eq hi hl
  obtain ⟨j, he, hj⟩ := bound_settles (n := told) (w := .lightness l) F hi rfl
  have hlevel : lit.get? x .level = n.get? x .level := he.others x .level (by simp [Value.model])
  rw [obey, hrule, List.foldl_cons]
  cases hk : n.get? x .level with
  | none =>
    refine ⟨he.bindings, ⟨j, he.after, hj⟩, fun k hk' => ?_⟩
    cases hk.symm.trans hk'
  | some k =>
    obtain ⟨k', he', hk'⟩ :=
      bound_settles (n := lit) (w := .level l.toLevel) F (hlevel.trans hk) rfl
    have hlamp := he'.others x .lightness (by simp [Value.model])
    refine ⟨he'.bindings.trans he.bindings, ⟨j, hlamp.trans he.after, hj⟩, fun k₀ hk₀ => ?_⟩
    obtain rfl := Option.some.inj (hk.symm.trans hk₀)
    exact ⟨k', he'.after, hk'⟩

/-- All bindings of the node are those of lamps that follow a behaviour at power-up, and one lamp
has one of them only. -/
structure Powers (n : Node) (p x : UInt8) : Prop where
  powerUp : ∀ b ∈ n.bindings.bindings, ∃ p x, b = .powerUp p x
  once : n.bindings.bindings.filter (fun b => b.link.target = x) = [.powerUp p x]

theorem Powers.congr (h : n.Powers p x) (hb : n'.bindings = n.bindings) : n'.Powers p x where
  powerUp := hb ▸ h.powerUp
  once := hb ▸ h.once

theorem Powers.isHelper (h : n.Powers p x) (hb : b ∈ n.bindings.bindings) : b.IsHelper := by
  obtain ⟨p', x', rfl⟩ := h.powerUp b hb
  exact .onPowerUpToLightness p' x'

theorem Powers.source_eq (h : n.Powers p x) (hb : b ∈ n.bindings.bindings)
    (hx : b.link.target = x) : b.link.source = p := by
  have hmem : b ∈ n.bindings.bindings.filter fun b => b.link.target = x :=
    List.mem_filter.mpr ⟨hb, decide_eq_true hx⟩
  rw [h.once, List.mem_singleton] at hmem
  rw [hmem]
  rfl

theorem Powers.matching (h : n.Powers p x) : ∃ pre post,
    n.bindings.matching p .onPowerUp = pre ++ .powerUp p x :: post ∧
      ∀ b ∈ pre ++ post, b.IsHelper ∧ x ≠ b.link.target := by
  obtain ⟨l₁, l₂, heq, hbefore, -, hafter⟩ := List.filter_eq_cons_iff.mp h.once
  refine ⟨l₁.filter fun b => b.link.source = p && b.link.sourceState = .onPowerUp,
    l₂.filter fun b => b.link.source = p && b.link.sourceState = .onPowerUp, ?_, ?_⟩
  · simp [BindingTable.matching, heq, List.filter_append, Binding.powerUp]
  · intro b hb
    rw [← List.filter_append] at hb
    have hmem := List.mem_of_mem_filter hb
    refine ⟨h.isHelper ?_, fun hx => ?_⟩
    · rw [heq]
      exact ((List.sublist_cons_self _ l₂).append_left l₁).subset hmem
    · rcases List.mem_append.mp hmem with hmem | hmem
      · exact hbefore b hmem (decide_eq_true hx.symm)
      · exact List.filter_eq_nil_iff.mp hafter b hmem (decide_eq_true hx.symm)

theorem Powers.lights_follow (h : n.Powers p x) (hmax : n.depth < n.config.maxBindDepth.toNat)
    (hl : Rule.powerUpLightness? i behaviour = some l) (hi : n.get? x .lightness = some i) :
    n.Lights x i l (n.follow p .powerOnOff (.onPowerUp behaviour)) := by
  obtain ⟨pre, post, hmatch, hothers⟩ := h.matching
  refine follow_through (I := n.KeepsElement x) (J := n.Lights x i l) rfl hmatch hmax
    (fun depth h => ⟨rfl, rfl, fun _ => rfl⟩) (fun n₁ depth h => ⟨h.bindings, h.lamp, h.level⟩)
    (fun F b hb n₁ h => ?_) (fun F n₁ h => ?_) (fun F b hb n₁ h => ?_) (.refl x n)
  · obtain ⟨hhelper, hx⟩ := hothers b (List.mem_append_left post hb)
    exact h.trans (keepsElement_obey hhelper hx n₁)
  · exact h.lights (lights_obey hl ((h.get? .lightness).trans hi))
  · obtain ⟨hhelper, hx⟩ := hothers b (List.mem_append_right pre hb)
    exact h.keepsElement (keepsElement_obey hhelper hx n₁)

theorem Powers.keepsElement_follow (h : n.Powers p x) (hb : n'.bindings = n.bindings) {e : UInt8}
    (hp : e ≠ p) (v : Value) : n'.KeepsElement x (n'.follow e .powerOnOff v) := by
  refine Node.keepsElement_follow (fun b hmem => ?_) v
  rw [hb] at hmem
  refine ⟨h.isHelper hmem, fun hstarts hx => hp ?_⟩
  rw [← hstarts.1, h.source_eq hmem hx.symm]

/-! ## The servers of a node -/

theorem nodup_instances_element (el : Element) : el.instances.Nodup := by
  refine List.Nodup.filterMap (fun m m' a ha ha' => ?_) (by decide)
  obtain ⟨_, -, rfl⟩ := Option.map_eq_some_iff.mp ha
  obtain ⟨_, -, heq⟩ := Option.map_eq_some_iff.mp ha'
  exact (congrArg Prod.fst heq).symm

theorem nodup_instances (h : n.elements.length ≤ NodePlan.maxElements) : n.instances.Nodup := by
  have hindices : n.elements.zipIdx.Pairwise fun a b => a.2 < b.2 := by
    rw [← List.pairwise_map, List.zipIdx_map_snd]
    exact List.pairwise_lt_range'
  refine List.nodup_flatMap.mpr ⟨fun a _ => ?_, hindices.imp_of_mem fun {a a'} ha ha' hlt => ?_⟩
  · exact (nodup_instances_element a.1).map fun _ _ heq => congrArg Prod.snd heq
  · -- Elements at different places have different addresses.
    have hindex {a : Element × Nat} (ha : a ∈ n.elements.zipIdx) :
        (UInt8.ofNat a.2).toNat = a.2 := by
      have hlt := (List.getElem?_eq_some_iff.mp (List.mk_mem_zipIdx_iff_getElem?.mp ha)).1
      exact UInt8.toNat_ofNat_of_lt' (hlt.trans_le h)
    intro y hy hy'
    obtain ⟨_, -, rfl⟩ := List.mem_map.mp hy
    obtain ⟨_, -, heq⟩ := List.mem_map.mp hy'
    have hsame := congrArg (fun t => t.1.toNat) heq
    simp only [hindex ha, hindex ha'] at hsame
    omega

/-- Among the servers that are obeyed at power-up there is one on each element that has one. -/
theorem servers_split {s : Instance} (h : n.elements.length ≤ NodePlan.maxElements)
    (hs : n.get? p .powerOnOff = some s) : ∃ pre post,
      n.instances.filter (fun (_, m, _) => m = .powerOnOff) = pre ++ (p, .powerOnOff, s) :: post ∧
        ∀ a ∈ pre ++ post, a.1 ≠ p ∧ a.2.1 = .powerOnOff := by
  have hmem : (p, .powerOnOff, s) ∈ n.instances.filter fun (_, m, _) => m = .powerOnOff :=
    List.mem_filter.mpr ⟨mem_instances hs, rfl⟩
  have hnodup := (nodup_instances h).filter fun (_, m, _) => m = .powerOnOff
  obtain ⟨pre, post, hsplit⟩ := List.append_of_mem hmem
  refine ⟨pre, post, hsplit, ?_⟩
  rintro ⟨e, m, k⟩ ha
  have hlisted : (e, m, k) ∈ n.instances.filter fun (_, m, _) => m = .powerOnOff := by
    rw [hsplit]
    exact ((List.sublist_cons_self _ post).append_left pre).subset ha
  obtain ⟨hk, hm⟩ := List.mem_filter.mp hlisted
  obtain rfl : m = .powerOnOff := of_decide_eq_true hm
  refine ⟨?_, rfl⟩
  rintro rfl
  obtain rfl := Option.some.inj (hs.symm.trans ((mem_instances_iff h).mp hk))
  rw [hsplit] at hnodup
  exact (List.nodup_middle.mp hnodup).notMem ha

/-- At power-up the lamp goes to what its server selects for it as it is then. -/
theorem Powers.lights_powerUp {s : Instance} (h : n.Powers p x)
    (hcount : n.elements.length ≤ NodePlan.maxElements)
    (hmax : n.depth < n.config.maxBindDepth.toNat) (hs : n.get? p .powerOnOff = some s)
    (hbehaviour : s.present = .onPowerUp behaviour)
    (hl : Rule.powerUpLightness? i behaviour = some l) (hi : n.get? x .lightness = some i) :
    n.Lights x i l n.powerUp.1 := by
  obtain ⟨pre, post, hsplit, hothers⟩ := servers_split hcount hs
  simp only [Node.powerUp, hsplit]
  refine foldl_through (I := fun n₁ => n.KeepsElement x n₁ ∧ n₁.depth = n.depth)
    (J := n.Lights x i l)
    ?_ ?_ ?_ ⟨.refl x n, rfl⟩
  · rintro ⟨e, m, k⟩ ha n₁ ⟨hskirts, hdepth⟩
    obtain ⟨hne, rfl⟩ := hothers _ (List.mem_append_left post ha)
    exact ⟨hskirts.trans (h.keepsElement_follow hskirts.bindings hne _),
      (deepens_follow n₁ e .powerOnOff k.present).depth.trans hdepth⟩
  · rintro n₁ ⟨hskirts, hdepth⟩
    have hlit := (hskirts.get? .lightness).trans hi
    rw [hbehaviour]
    refine hskirts.lights ((h.congr hskirts.bindings).lights_follow ?_ hl hlit)
    rw [hdepth, hskirts.config]
    exact hmax
  · rintro ⟨e, m, k⟩ ha n₁ hlights
    obtain ⟨hne, rfl⟩ := hothers _ (List.mem_append_right pre ha)
    exact hlights.keepsElement (h.keepsElement_follow hlights.bindings hne _)

/-! ## What is selected -/

/-- What is selected is within the range, unless it is what the lamp was going to. -/
theorem clamp_powerUpLightness
    (hrange : LightMemory.isRange i.light.rangeMin i.light.rangeMax = true)
    (hl : Rule.powerUpLightness? i behaviour = some l) (hb : behaviour ≠ .restore) :
    i.light.clamp l = l := by
  cases behaviour with
  | off =>
    obtain rfl := Option.some.inj hl
    rfl
  | default =>
    obtain rfl := Option.some.inj hl
    exact LightMemory.clamp_eq_self_iff.mpr (LightMemory.isWithin_clamp hrange _)
  | restore => exact absurd rfl hb

/-- After power-up a lamp that follows one behaviour is settled: off, on as if it had been switched
on, or on its target as far as its range lets it. A level on its element is settled as well, and at
the position of the lamp, unless the lamp was going to a lightness outside of its range and is to be
restored: then the level is at the position of that lightness. -/
theorem power_up_shows (hn : n.IsReached) (h : n.Powers p x)
    (hp : n.present? p .powerOnOff = some (.onPowerUp behaviour))
    (hi : n.get? x .lightness = some i) :
    ∃ j g l, n.powerUp.1.get? x .lightness = some j ∧ j.phase = .idle ∧
      j.present = .lightness l ∧ i.target = .lightness g ∧
      (behaviour = .off → l = 0) ∧ (behaviour = .default → l = i.light.onValue) ∧
      (behaviour = .restore → l = i.light.clamp g) ∧
      ∀ k, n.get? x .level = some k → ∃ k' v, n.powerUp.1.get? x .level = some k' ∧
        k'.phase = .idle ∧ k'.present = .level v ∧ (behaviour = .restore → v = g.toLevel) ∧
        (v.toInt = (l.toNat : Int) - 32768 ↔
          behaviour ≠ .restore ∨ i.target.IsWithin i.light.range) := by
  have hsound := hn.sound
  have hregular := hn.regular
  have hmax : n.depth < n.config.maxBindDepth.toNat := hn.depth ▸ hsound.maxBindDepth_pos
  have hrange := LightMemory.isRange_iff.mpr (hregular.instances x .lightness i hi).range
  obtain ⟨s, hs, hbehaviour⟩ := Option.map_eq_some_iff.mp hp
  obtain ⟨g, hg⟩ := lightness_of_model (hsound.typed x .lightness i hi).target
  obtain ⟨l, hl, hoff, hdefault, hrestore⟩ : ∃ l, Rule.powerUpLightness? i behaviour = some l ∧
      (behaviour = .off → l = 0) ∧ (behaviour = .default → l = i.light.onValue) ∧
      (behaviour = .restore → l = g) := by
    cases behaviour <;> simp [Rule.powerUpLightness?, hg]
  have hclamp := clamp_powerUpLightness hrange hl
  obtain ⟨-, ⟨j, hj, hsettles⟩, hlevel⟩ :=
    h.lights_powerUp hregular.count hmax hs hbehaviour hl hi
  refine ⟨j, g, i.light.clamp l, hj, hsettles.idle, hsettles.present, hg, fun hb => ?_,
    fun hb => ?_, fun hb => by rw [hrestore hb], fun k hk => ?_⟩
  · rw [hclamp (by simp [hb]), hoff hb]
  · rw [hclamp (by simp [hb]), hdefault hb]
  · obtain ⟨k', hk', hsettles'⟩ := hlevel k hk
    refine ⟨k', l.toLevel, hk', hsettles'.idle, hsettles'.present,
      fun hb => by rw [hrestore hb], ?_⟩
    -- The level takes what was selected, the lamp the same pulled into its range.
    have hsame : l.toLevel.toInt = ((i.light.clamp l).toNat : Int) - 32768 ↔
        i.light.clamp l = l := by
      rw [Lightness.toInt_toLevel, ← UInt16.toNat_inj]
      omega
    rw [hsame]
    by_cases hb : behaviour = .restore
    · rw [hrestore hb, hg, LightMemory.clamp_eq_self_iff]
      simp [hb]
    · simp [hb, hclamp hb]

def poweredLamp : Node :=
  ⟨{}, [((Element.empty.set .lightness (some (.new .lightness 16 32))).set .level
      (some (.new .level 16 32))).set .powerOnOff (some (.new .powerOnOff 16 32))],
    .withCapacity 30, .startingAt 0, .none, false, 0, []⟩

theorem isBuilt_poweredLamp : poweredLamp.IsBuilt :=
  ⟨⟨{}, [⟨[.lightness, .level, .powerOnOff], [], []⟩]⟩, 0, false, rfl⟩

theorem powers_of_bindings (h : n.bindings.bindings = [.powerUp p x]) : n.Powers p x where
  powerUp b hb := by
    rw [h, List.mem_singleton] at hb
    exact ⟨p, x, hb⟩
  once := by simp [h, Binding.powerUp]

/-- The power fails while a lamp fades in, and the lamp returns to where it was going. -/
theorem power_up_shows_poweredLamp :
    let n := poweredLamp.run [.call (.bindLightnessToOnPowerUp 0 0),
      .call (.request (.application 0 (.onPowerUp .restore) 0 0)),
      .call (.request (.application 0 (.lightness 20000) 4000 0)), .advance 1000]
    n.IsReached ∧ n.Powers 0 0 ∧ n.present? 0 .powerOnOff = some (.onPowerUp .restore) ∧
      n.present? 0 .lightness = some (.lightness 5000) ∧
      n.powerUp.1.present? 0 .lightness = some (.lightness 20000) ∧
      n.powerUp.1.present? 0 .level = some (.level (-12768)) := by
  intro n
  have hn : n.IsReached := ⟨poweredLamp, _, isBuilt_poweredLamp, rfl⟩
  have hpowers : n.Powers 0 0 := powers_of_bindings rfl
  have hp : n.present? 0 .powerOnOff = some (.onPowerUp .restore) := by decide +kernel
  have hlamp : (n.get? 0 .lightness).map (fun i => (i.present, i.target, i.light)) =
      some (.lightness 5000, .lightness 20000, ⟨0, 5000, 1, 65535⟩) := by decide +kernel
  have hlevel : n.hosts 0 .level = true := by decide +kernel
  obtain ⟨i, hi, hparts⟩ := Option.map_eq_some_iff.mp hlamp
  obtain ⟨k, hk⟩ := hosts_iff.mp hlevel
  simp only [Prod.mk.injEq] at hparts
  obtain ⟨hpresent, htarget, hlight⟩ := hparts
  obtain ⟨j, g, l, hj, -, hl, hg, -, -, hrestore, hgoes⟩ := power_up_shows hn hpowers hp hi
  obtain ⟨k', v, hk', -, hv, hw, -⟩ := hgoes k hk
  obtain rfl := Value.lightness.inj (htarget.symm.trans hg)
  rw [hrestore rfl, hlight] at hl
  rw [hw rfl] at hv
  refine ⟨hn, hpowers, hp, ?_, ?_, ?_⟩
  · rw [present?, hi, Option.map_some, hpresent]
  · rw [present?, hj, Option.map_some, hl]
    decide
  · rw [present?, hk', Option.map_some, hv]
    decide

/-- A lamp that is reset while it fades in below its range is to be restored to where it was then.
It goes to the end of its range, and the level to where the lamp was. -/
theorem apart_poweredLamp :
    let n := poweredLamp.run [.call (.setLightRange 0 10000 50000),
      .call (.bindLightnessToOnPowerUp 0 0),
      .call (.request (.application 0 (.onPowerUp .restore) 0 0)),
      .call (.request (.application 0 (.lightness 20000) 4000 0)), .advance 1000, .call .reset]
    n.IsReached ∧ n.Powers 0 0 ∧ n.present? 0 .powerOnOff = some (.onPowerUp .restore) ∧
      n.powerUp.1.present? 0 .lightness = some (.lightness 10000) ∧
      n.powerUp.1.present? 0 .level = some (.level (-27768)) ∧
      (-27768 : Level).toInt ≠ ((10000 : Lightness).toNat : Int) - 32768 := by
  intro n
  exact ⟨⟨poweredLamp, _, isBuilt_poweredLamp, rfl⟩, powers_of_bindings rfl, by decide +kernel,
    by decide +kernel, by decide +kernel, by decide⟩

end Node

end MeshNode
