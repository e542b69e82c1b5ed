import MeshNode.Proofs.Bindings.CoupledRuns
import MeshNode.Proofs.Node.WellFormedInstances

/-! # Lamps in step

A lightness bound to a level has the position of the level, and a lightness bound to a switch is
zero exactly while the switch is off. Once it is so it stays so, whatever clients and the
application ask of either and however their changes overlap, as long as no scene, snapshot or other
binding comes between. A change that is in progress for a scene or for a binding is not followed
when it ends, and a lamp whose last lightness is zero, as only a snapshot can make it, is switched
on to zero.
-/

namespace MeshNode

/-! ## Positions and ranges -/

theorem Lightness.toInt_toLevel (l : Lightness) : l.toLevel.toInt = (l.toNat : Int) - 32768 := by
  have hlt := l.toNat_lt
  exact Int16.toInt_ofInt_of_le (by omega) (by omega)

theorem Lightness.toNat_ofLevel (v : Level) :
    ((Lightness.ofLevel v).toNat : Int) = v.toInt + 32768 := by
  have hle := v.le_toInt
  have hlt := v.toInt_lt
  have hsize : (v.toInt + 32768).toNat < UInt16.size := by
    rw [UInt16.size]
    omega
  rw [ofLevel, UInt16.toNat_ofNat_of_lt' hsize]
  omega

namespace LightMemory

variable {memory : LightMemory}

theorem clamp_eq_self (hmin : memory.rangeMin = 1) (hmax : memory.rangeMax = 65535)
    (l : Lightness) : memory.clamp l = l := by
  have hlt := l.toNat_lt
  rw [clamp, hmin, hmax]
  split
  · rfl
  next hne =>
    have hpos : l.toNat ≠ 0 := fun h => hne (UInt16.toNat_inj.mp h)
    rw [if_neg, if_neg]
    · simp only [UInt16.lt_iff_toNat_lt, UInt16.reduceToNat]
      omega
    · simp only [UInt16.lt_iff_toNat_lt, UInt16.reduceToNat]
      omega

theorem clamp_eq_zero_iff (hmin : memory.rangeMin ≠ 0) (hmax : memory.rangeMax ≠ 0)
    (l : Lightness) : memory.clamp l = 0 ↔ l = 0 := by
  rw [clamp]
  split
  · rfl
  next hl =>
    split
    · simp [hmin, hl]
    · split
      · simp [hmax, hl]
      · rfl

theorem ne_zero_of_isRange {lo hi : Lightness} (h : isRange lo hi = true) : lo ≠ 0 ∧ hi ≠ 0 := by
  simp only [isRange, Bool.and_eq_true, decide_eq_true_eq, UInt16.le_iff_toNat_le] at h
  refine ⟨h.1, ?_⟩
  rintro rfl
  exact h.1 (UInt16.toNat_inj.mp (Nat.le_zero.mp h.2))

theorem onValue_ne_zero (hlast : memory.last ≠ 0) (hmin : memory.rangeMin ≠ 0)
    (hmax : memory.rangeMax ≠ 0) : memory.onValue ≠ 0 := by
  rw [onValue, ne_eq, clamp_eq_zero_iff hmin hmax]
  split
  · assumption
  · exact hlast

end LightMemory

/-! ## The two couplings -/

def Coupling.level (lamp mate : UInt8) : Coupling where
  lamp := lamp
  mate := mate
  model := .level
  state := .level
  rule := Rule.lightnessToLevel
  back := Rule.levelToLightness
  fits l w := ∃ v, w = .level v ∧ v.toInt = (l.toNat : Int) - 32768
  keeps memory := memory.rangeMin = 1 ∧ memory.rangeMax = 65535
  boundState := rfl
  ne_lightness := by decide
  isTransitional := rfl
  follows _ l := ⟨.level l.toLevel, rfl, rfl, rfl, l.toLevel, rfl, l.toInt_toLevel⟩
  leads elements w i hw _ := by
    cases w with
    | level v =>
      -- The range holds every lightness, so the lightness arrives at the level.
      refine ⟨.ofLevel v, rfl, fun hkeeps => ⟨v, rfl, ?_⟩⟩
      rw [LightMemory.clamp_eq_self hkeeps.1 hkeeps.2, Lightness.toNat_ofLevel]
      omega
    | _ => cases hw
  keeps_initial := ⟨rfl, rfl⟩
  keeps_noting memory v hkeeps := by
    cases v with
    | lightness l =>
      rw [LightMemory.noting]
      split
      · exact hkeeps
      · exact hkeeps
    | _ => exact hkeeps
  keeps_default _ _ hkeeps := hkeeps

/-- A lightness and the switch that is on unless the lightness is zero. -/
def Coupling.switch (lamp mate : UInt8) : Coupling where
  lamp := lamp
  mate := mate
  model := .onOff
  state := .onOff
  rule := Rule.lightnessToOnOff
  back := Rule.onOffToLightness
  fits l w := ∃ x, w = .onOff x ∧ (x = .on ↔ l ≠ 0)
  keeps memory := memory.last ≠ 0 ∧ memory.rangeMin ≠ 0 ∧ memory.rangeMax ≠ 0
  boundState := rfl
  ne_lightness := by decide
  isTransitional := rfl
  follows _ l := by
    refine ⟨.onOff (.ofBool (0 < l)), rfl, rfl, rfl, _, rfl, ?_⟩
    by_cases hl : l = 0
    · simp [hl, OnOff.ofBool]
    · have hpos : 0 < l := UInt16.pos_iff_ne_zero.mpr hl
      simp [hl, hpos, OnOff.ofBool]
  leads elements w i hw hi := by
    cases w with
    | onOff x =>
      cases x with
      | off =>
        refine ⟨0, by simp only [Rule.onOffToLightness, hi], fun _ => ⟨.off, rfl, ?_⟩⟩
        simp [LightMemory.clamp]
      | on =>
        refine ⟨i.light.onValue, by simp only [Rule.onOffToLightness, hi], ?_⟩
        rintro ⟨hlast, hmin, hmax⟩
        refine ⟨.on, rfl, ?_⟩
        rw [ne_eq, LightMemory.clamp_eq_zero_iff hmin hmax]
        exact iff_of_true rfl (LightMemory.onValue_ne_zero hlast hmin hmax)
    | _ => cases hw
  keeps_initial := by decide
  keeps_noting memory v hkeeps := by
    cases v with
    | lightness l =>
      rw [LightMemory.noting]
      split
      · exact hkeeps
      next hl => exact ⟨hl, hkeeps.2⟩
    | _ => exact hkeeps
  keeps_default _ _ hkeeps := hkeeps

theorem Coupling.keepsRanges_switch (lamp mate : UInt8) : (switch lamp mate).KeepsRanges := by
  rintro memory lo hi hrange ⟨hlast, -⟩
  exact ⟨hlast, LightMemory.ne_zero_of_isRange hrange⟩

/-! ## Runs -/

/-- The call asks for nothing in the name of a scene, a binding or a snapshot. -/
def Call.IsDirect : Call → Prop
  | .request r => r.source = .client ∨ r.source = .application
  | .recallScene .. | .restore _ => False
  | x => x.registrations = []

/-- The call leaves the range of every lightness as it is. -/
def Call.LeavesRange : Call → Prop
  | .setLightRange .. => False
  | _ => True

theorem Coupling.permits_of_isDirect {c : Coupling} {strict : Prop} {x : Call} (hx : x.IsDirect)
    (hr : ∀ e lo hi, x = .setLightRange e lo hi → c.KeepsRanges) : c.Permits strict x := by
  cases x with
  | request r =>
    intro _
    rcases hx with h | h
    · rw [h]
      rfl
    · rw [h]
      rfl
  | setLightRange e lo hi => exact hr e lo hi rfl
  | recallScene | restore => exact hx.elim
  | _ => exact hx

namespace Node

variable {n : Node} {a b : UInt8} {ops : List Operation}

/-- The level of the second element is at the position of the lightness of the first one. -/
def LevelFits (n : Node) (a b : UInt8) : Prop :=
  ∃ l v, n.present? a .lightness = some (.lightness l) ∧ n.present? b .level = some (.level v) ∧
    v.toInt = (l.toNat : Int) - 32768

/-- The switch of the second element is on unless the lightness of the first one is zero. -/
def SwitchFits (n : Node) (a b : UInt8) : Prop :=
  ∃ l x, n.present? a .lightness = some (.lightness l) ∧ n.present? b .onOff = some (.onOff x) ∧
    (x = .on ↔ l ≠ 0)

theorem fits_level_iff : n.Fits (.level a b) ↔ n.LevelFits a b := by
  constructor
  · rintro ⟨l, _, hl, hw, v, rfl, hv⟩
    exact ⟨l, v, hl, hw, hv⟩
  · rintro ⟨l, v, hl, hw, hv⟩
    exact ⟨l, _, hl, hw, v, rfl, hv⟩

theorem fits_switch_iff : n.Fits (.switch a b) ↔ n.SwitchFits a b := by
  constructor
  · rintro ⟨l, _, hl, hw, x, rfl, hx⟩
    exact ⟨l, x, hl, hw, hx⟩
  · rintro ⟨l, x, hl, hw, hx⟩
    exact ⟨l, _, hl, hw, x, rfl, hx⟩

/-- A lightness and a level that are bound to each other stay at the same position, as long as only
clients and the application ask for changes and the range is the whole one. -/
theorem levelFits_run (h : n.IsBoundBy (bindLightnessToLevel · a b))
    (hrange : n.range? a .lightness = some LightMemory.initial.range) (hd : n.IsDirect)
    (hfits : n.LevelFits a b) (hops : ∀ x, .call x ∈ ops → x.IsDirect ∧ x.LeavesRange) :
    ∀ pre, pre <+: ops → (n.run pre).LevelFits a b ∧ (n.run pre).IsDirect := by
  intro pre hpre
  have hbound : n.IsBoundBy (Coupling.level a b).couple := h
  have hkeeps (i : Instance) (hi : n.get? a .lightness = some i) :
      (Coupling.level a b).keeps i.light := by
    rw [range?, hi] at hrange
    exact Prod.mk.inj (Option.some.inj hrange)
  have hpermits (x : Call) (hx : .call x ∈ pre) : (Coupling.level a b).Permits True x := by
    obtain ⟨hdirect, hrange⟩ := hops x (hpre.subset hx)
    refine Coupling.permits_of_isDirect hdirect ?_
    rintro e lo hi rfl
    exact hrange.elim
  have hrun := hbound.fits hkeeps hd (fits_level_iff.mpr hfits) hpermits
  exact ⟨fits_level_iff.mp hrun.1, hrun.2⟩

def lamp : Node :=
  ⟨{}, [(Element.empty.set .lightness (some (.new .lightness 16 32))).set .level
      (some (.new .level 16 32)), Element.empty.set .onOff (some (.new .onOff 16 32))],
    .withCapacity 30, .startingAt 0, .none, true, 0, []⟩

theorem isBuilt_lamp : lamp.IsBuilt :=
  ⟨⟨{}, [⟨[.lightness, .level], [], []⟩, .single .onOff]⟩, 0, true, rfl⟩

/-- A level on its way up is overtaken by the lightness, and that by a move of the level. -/
theorem levelFits_run_lamp :
    let n := (lamp.bindLightnessToLevel 0 0).1.run
      [.call (.request (.application 0 (.lightness 1000) 0 0))]
    let ops : List Operation :=
      [.call (.receive ⟨0, 7, 0, true⟩ (.set .level [16, 39, 1, 74, 2] true)), .advance 3500,
        .call (.request (.application 0 (.lightness 60000) 7000 4)), .advance 3000,
        .call (.receive ⟨0, 7, 0, true⟩ (.levelMove [0, 252, 2, 10, 0] false)), .advance 4000]
    n.IsBoundBy (bindLightnessToLevel · 0 0) ∧ n.IsDirect ∧ n.LevelFits 0 0 ∧
      (n.run ops).LevelFits 0 0 ∧
      (n.run ops).present? 0 .lightness = some (.lightness 21976) := by
  intro n ops
  have hbound : n.IsBoundBy (bindLightnessToLevel · 0 0) := by
    refine ⟨lamp, [], [.call (.request (.application 0 (.lightness 1000) 0 0))], isBuilt_lamp,
      by decide +kernel, ?_, rfl⟩
    intro x hx
    obtain rfl : x = .request (.application 0 (.lightness 1000) 0 0) := by simpa using hx
    rfl
  have hdirect : n.IsDirect := by
    have hall : ∀ x ∈ n.instances, x.2.2.phase = .idle := by decide +kernel
    intro e m i hi hphase
    exact absurd (hall _ (mem_instances hi)) hphase
  have hfits : n.LevelFits 0 0 := ⟨1000, -31768, by decide +kernel, by decide +kernel, by decide⟩
  have hops : ∀ x, .call x ∈ ops → x.IsDirect ∧ x.LeavesRange := by
    intro x hx
    simp only [ops, List.mem_cons, List.not_mem_nil, Operation.call.injEq, or_false, false_or,
      reduceCtorEq] at hx
    rcases hx with rfl | rfl | rfl
    · exact ⟨rfl, trivial⟩
    · exact ⟨.inr rfl, trivial⟩
    · exact ⟨rfl, trivial⟩
  have hrun := levelFits_run hbound (by decide +kernel) hdirect hfits hops ops List.prefix_rfl
  exact ⟨hbound, hdirect, hfits, hrun.1, by decide +kernel⟩

/-- The level does not follow a lightness that was on its way for a scene. -/
theorem levelFits_lost_lamp :
    let n := (lamp.bindLightnessToLevel 0 0).1.run
      [.call (.request (.application 0 (.lightness 1000) 0 0)),
        .call (.request (.scene 0 .lightness (.lightness 20000) 500))]
    n.IsBoundBy (bindLightnessToLevel · 0 0) ∧
      n.range? 0 .lightness = some LightMemory.initial.range ∧ n.LevelFits 0 0 ∧
      ¬ (n.run [.advance 500]).LevelFits 0 0 := by
  intro n
  have hbound : n.IsBoundBy (bindLightnessToLevel · 0 0) := by
    refine ⟨lamp, [], [.call (.request (.application 0 (.lightness 1000) 0 0)),
      .call (.request (.scene 0 .lightness (.lightness 20000) 500))], isBuilt_lamp,
      by decide +kernel, ?_, rfl⟩
    intro x hx
    simp only [List.nil_append, List.mem_cons, Operation.call.injEq, List.not_mem_nil,
      or_false] at hx
    rcases hx with rfl | rfl <;> rfl
  refine ⟨hbound, by decide +kernel, ⟨1000, -31768, by decide +kernel, by decide +kernel,
    by decide⟩, ?_⟩
  rintro ⟨l, v, hl, hv, heq⟩
  have hl' : (n.run [.advance 500]).present? 0 .lightness = some (.lightness 20000) := by
    decide +kernel
  have hv' : (n.run [.advance 500]).present? 0 .level = some (.level (-31768)) := by decide +kernel
  obtain rfl := Value.lightness.inj (Option.some.inj (hl.symm.trans hl'))
  obtain rfl := Value.level.inj (Option.some.inj (hv.symm.trans hv'))
  exact absurd heq (by decide)

theorem IsBoundBy.isReached {helper : Node → Node × Registration × Registration} {x : Call}
    (h : n.IsBoundBy helper) (hx : ∀ n : Node, n.handle x = (helper n).1) : n.IsReached := by
  obtain ⟨n₀, before, after, hn, -, -, rfl⟩ := h
  refine ⟨n₀, before ++ .call x :: after, hn, ?_⟩
  rw [run_append, ← hx]
  rfl

/-- A lightness and a switch that are bound to each other stay both on or both off, as long as only
clients and the application ask for changes, unless the last lightness is zero. -/
theorem switchFits_run (h : n.IsBoundBy (bindLightnessToOnOff · a b))
    (hlast : ∀ i, n.get? a .lightness = some i → i.light.last ≠ 0) (hd : n.IsDirect)
    (hfits : n.SwitchFits a b) (hops : ∀ x, .call x ∈ ops → x.IsDirect) :
    ∀ pre, pre <+: ops → (n.run pre).SwitchFits a b ∧ (n.run pre).IsDirect := by
  intro pre hpre
  have hbound : n.IsBoundBy (Coupling.switch a b).couple := h
  have hreached : n.IsReached := h.isReached (x := .bindLightnessToOnOff a b) fun _ => rfl
  have hkeeps (i : Instance) (hi : n.get? a .lightness = some i) :
      (Coupling.switch a b).keeps i.light :=
    ⟨hlast i hi, LightMemory.ne_zero_of_isRange
      (LightMemory.isRange_iff.mpr (hreached.regular.instances a .lightness i hi).range)⟩
  have hpermits (x : Call) (hx : .call x ∈ pre) : (Coupling.switch a b).Permits True x :=
    Coupling.permits_of_isDirect (hops x (hpre.subset hx)) fun _ _ _ _ =>
      Coupling.keepsRanges_switch a b
  have hrun := hbound.fits hkeeps hd (fits_switch_iff.mpr hfits) hpermits
  exact ⟨fits_switch_iff.mp hrun.1, hrun.2⟩

/-- A switch goes on at the start of a transition and off at the end of one, while the range of the
lightness and the lightness to switch on to are changed. -/
theorem switchFits_run_lamp :
    let n := (lamp.bindLightnessToOnOff 0 1).1
    let ops : List Operation :=
      [.call (.receive ⟨1, 7, 0, true⟩ (.set .onOff [1, 1, 10, 2] true)), .advance 550,
        .call (.setLightRange 0 5000 30000), .call (.request (.application 0 (.lightness 0) 700 4)),
        .call (.receive ⟨1, 7, 0, true⟩ (.set .onOff [0, 2, 3, 0] false)), .advance 400,
        .call (.setLightDefault 0 9000), .call (.request (.application 1 (.onOff .on) 0 0))]
    n.IsBoundBy (bindLightnessToOnOff · 0 1) ∧ n.IsDirect ∧ n.SwitchFits 0 1 ∧
      (n.run ops).SwitchFits 0 1 ∧
      (n.run ops).present? 0 .lightness = some (.lightness 9000) := by
  intro n ops
  have hbound : n.IsBoundBy (bindLightnessToOnOff · 0 1) :=
    ⟨lamp, [], [], isBuilt_lamp, by decide +kernel, by simp, rfl⟩
  have hlast : ∀ i, n.get? 0 .lightness = some i → i.light.last ≠ 0 := by
    have hlight : (n.get? 0 .lightness).map Instance.light = some .initial := by decide +kernel
    intro i hi
    rw [hi] at hlight
    rw [Option.some.inj hlight]
    decide
  have hdirect : n.IsDirect := by
    have hall : ∀ x ∈ n.instances, x.2.2.phase = .idle := by decide +kernel
    intro e m i hi hphase
    exact absurd (hall _ (mem_instances hi)) hphase
  have hfits : n.SwitchFits 0 1 := ⟨0, .off, by decide +kernel, by decide +kernel, by decide⟩
  have hops : ∀ x, .call x ∈ ops → x.IsDirect := by
    intro x hx
    simp only [ops, List.mem_cons, List.not_mem_nil, Operation.call.injEq, or_false, false_or,
      reduceCtorEq] at hx
    rcases hx with rfl | rfl | rfl | rfl | rfl | rfl
    · rfl
    · rfl
    · exact .inr rfl
    · rfl
    · rfl
    · exact .inr rfl
  have hrun := switchFits_run hbound hlast hdirect hfits hops ops List.prefix_rfl
  exact ⟨hbound, hdirect, hfits, hrun.1, by decide +kernel⟩

theorem not_switchFits {l : Lightness} {x : OnOff}
    (hl : n.present? a .lightness = some (.lightness l))
    (hx : n.present? b .onOff = some (.onOff x)) (hne : ¬ (x = .on ↔ l ≠ 0)) :
    ¬ n.SwitchFits a b := by
  rintro ⟨l', x', hl', hx', h⟩
  obtain rfl := Value.lightness.inj (Option.some.inj (hl.symm.trans hl'))
  obtain rfl := Value.onOff.inj (Option.some.inj (hx.symm.trans hx'))
  exact hne h

/-- The switch does not follow a lightness that was on its way for a scene, and it goes on without
the lamp if the last lightness is zero. -/
theorem switchFits_lost_lamp :
    let bound := (lamp.bindLightnessToOnOff 0 1).1
    let n := bound.run [.call (.request (.scene 0 .lightness (.lightness 20000) 500))]
    let dark : Image :=
      ⟨0, .lightness, .lightness 0, .lightness 0, [], ⟨0, 0, 1, 65535⟩, ⟨[], 0⟩⟩
    let n' := bound.run [.call (.restore (.ofImage "" .epoch dark))]
    (n.IsBoundBy (bindLightnessToOnOff · 0 1) ∧ n.SwitchFits 0 1 ∧
      ¬ (n.run [.advance 500]).SwitchFits 0 1) ∧
      n'.IsBoundBy (bindLightnessToOnOff · 0 1) ∧ n'.SwitchFits 0 1 ∧
        ¬ (n'.run [.call (.request (.application 1 (.onOff .on) 0 0))]).SwitchFits 0 1 := by
  intro bound n dark n'
  have hbound (x : Call) (hx : x.registrations = []) :
      (bound.run [.call x]).IsBoundBy (bindLightnessToOnOff · 0 1) := by
    refine ⟨lamp, [], [.call x], isBuilt_lamp, by decide +kernel, ?_, rfl⟩
    intro y hy
    obtain rfl : y = x := by simpa using hy
    exact hx
  refine ⟨⟨hbound _ rfl, ⟨0, .off, ?_, ?_, by decide⟩, ?_⟩, hbound _ rfl,
    ⟨0, .off, ?_, ?_, by decide⟩, ?_⟩
  · decide +kernel
  · decide +kernel
  · exact not_switchFits (l := 20000) (x := .off) (by decide +kernel) (by decide +kernel)
      (by decide)
  · decide +kernel
  · decide +kernel
  · exact not_switchFits (l := 0) (x := .on) (by decide +kernel) (by decide +kernel) (by decide)

end Node

end MeshNode
