import MeshNode.Proofs.Bindings.SeparateTargets
import MeshNode.Proofs.Light.LampsWithinRange
import MeshNode.Proofs.Bindings.NestingDepth
import MeshNode.Proofs.Storage.Histories
import MeshNode.Proofs.Node.WellFormedInstances

/-! # Rekindling a lamp

A lamp remembers the last lightness other than zero that it was made to show, and goes back to it
when the switch that it follows is switched off and on again, unless it has a default. What it was
built with was not shown in this sense, so a lamp that is built lit does not remember that.
-/

namespace MeshNode

def Value.lit? : Value → Option Lightness
  | lightness l => if l = 0 then none else some l
  | _ => none

theorem Value.lit?_lightness {l : Lightness} (hl : l ≠ 0) : (lightness l).lit? = some l := if_neg hl

theorem LightMemory.last_noting (memory : LightMemory) (v : Value) :
    (memory.noting v).last = v.lit?.getD memory.last := by
  cases v with
  | lightness l =>
    simp only [noting, Value.lit?]
    split <;> rfl
  | _ => rfl

namespace Moment

/-- The values that were shown on an instance on the way from one moment to another, oldest
first. -/
inductive Shows (P : Node → Call → Prop) (e : UInt8) (m : Model) (c₀ : Moment) :
    Moment → List Value → Prop where
  | start : Shows P e m c₀ c₀ []
  | next {c c' : Moment} {vs : List Value} (h : Shows P e m c₀ c vs) (hc : Next P c c') :
    Shows P e m c₀ c' (vs ++ (c.shows? e m).toList)

variable {P : Node → Call → Prop} {e : UInt8} {m : Model} {c₀ c c' : Moment} {vs : List Value}
  {v v₀ : Value} {l l₀ : Lightness}

theorem exists_shows (hc : Later P c₀ c) (e : UInt8) (m : Model) : ∃ vs, Shows P e m c₀ c vs := by
  induction hc with
  | refl => exact ⟨[], .start⟩
  | tail _ hc ih =>
    obtain ⟨vs, hvs⟩ := ih
    exact ⟨_, hvs.next hc⟩

theorem Shows.later (h : Shows P e m c₀ c vs) : Later P c₀ c := by
  induction h with
  | start => exact .refl
  | next _ hc ih => exact ih.tail hc

/-- An instance that showed one value and remembered one lightness at first, with all the values
that were shown since. -/
structure Remembers (e : UInt8) (m : Model) (v₀ : Value) (l₀ : Lightness) (vs : List Value)
    (c : Moment) : Prop where
  present : c.node.present? e m = some (vs.getLastD v₀)
  last : c.node.last? e m = some ((vs.filterMap Value.lit?).getLastD l₀)

theorem Remembers.next (hr : Remembers e m v₀ l₀ vs c) (h : c.RestoresNothing) (hc : Next P c c') :
    Remembers e m v₀ l₀ (vs ++ (c.shows? e m).toList) c' := by
  rcases next_cases h hc e m with ⟨hnone, hshown, hlast⟩ | ⟨v, s, hv, -, hdisplay⟩
  · rw [hnone, Option.toList_none, List.append_nil]
    exact ⟨(Node.present?_congr hshown).trans hr.present, hlast.trans hr.last⟩
  · obtain ⟨i, hi, -⟩ := Option.map_eq_some_iff.mp hr.present
    have hbefore : i.light.last = (vs.filterMap Value.lit?).getLastD l₀ := by
      have hlast := hr.last
      rw [Node.last?, hi] at hlast
      exact Option.some.inj hlast
    have hafter : c'.node.get? e m = some (i.display v s c.node.now) := by
      rw [hdisplay, Node.display, Node.get?_modify_self, hi]
      rfl
    rw [hv, Option.toList_some]
    constructor
    · rw [Node.present?, hafter, Option.map_some, List.getLastD_concat]
      rfl
    · rw [Node.last?, hafter, Option.map_some, List.filterMap_append]
      change some (i.light.noting v).last = _
      rw [LightMemory.last_noting, hbefore]
      cases hlit : v.lit? with
      | none => simp [hlit]
      | some l => simp [hlit]

theorem Shows.remembers (hw : Shows Node.NoRestore e m c₀ c vs) (h₀ : c₀.RestoresNothing)
    (hr : Remembers e m v₀ l₀ [] c₀) : Remembers e m v₀ l₀ vs c := by
  induction hw with
  | start => exact hr
  | next hw hc ih => exact ih.next (h₀.later hw.later) hc

end Moment

theorem getLastD_lit_cons (v : Value) (vs : List Value) (l : Lightness) :
    ((v :: vs).filterMap Value.lit?).getLastD l =
      (vs.filterMap Value.lit?).getLastD (v.lit?.getD l) := by
  cases hv : v.lit? with
  | none => rw [List.filterMap_cons_none hv, Option.getD_none]
  | some a => rw [List.filterMap_cons_some hv, List.getLastD_cons, Option.getD_some]

theorem getLastD_lit_of_getLastD {vs : List Value} {v₀ : Value} {l l₀ : Lightness} (hvs : vs ≠ [])
    (hlast : vs.getLastD v₀ = .lightness l) (hl : l ≠ 0) :
    (vs.filterMap Value.lit?).getLastD l₀ = l := by
  obtain ⟨ws, v, rfl⟩ := (List.eq_nil_or_concat' vs).resolve_left hvs
  rw [List.getLastD_concat] at hlast
  rw [List.filterMap_append, hlast, List.filterMap_cons_some (Value.lit?_lightness hl),
    List.filterMap_nil, List.getLastD_concat]

theorem getLastD_lit_eq_iff (vs : List Value) (a b : Lightness) :
    (vs.filterMap Value.lit?).getLastD a = (vs.filterMap Value.lit?).getLastD b ↔
      a = b ∨ ∃ v ∈ vs, v.lit?.isSome = true := by
  induction vs generalizing a b with
  | nil => simp
  | cons v vs ih =>
    rw [getLastD_lit_cons, getLastD_lit_cons, ih]
    cases hv : v.lit? with
    | none => simp [hv]
    | some l => simp [hv]

/-! ## Switching off and on -/

def OnOff.select (memory : LightMemory) : OnOff → Lightness
  | off => 0
  | on => memory.onValue

/-- The lamp has no default, and what it remembers is one lightness as far as its range goes. -/
structure Instance.Primed (range : Lightness × Lightness) (c : Lightness) (i : Instance) :
    Prop where
  default : i.light.default = 0
  range : i.light.range = range
  last : i.light.clamp i.light.last = c

theorem LightMemory.default_noting (memory : LightMemory) (v : Value) :
    (memory.noting v).default = memory.default := by
  cases v with
  | lightness l =>
    rw [noting]
    split <;> rfl
  | _ => rfl

theorem LightMemory.clamp_congr {memory memory' : LightMemory} (h : memory'.range = memory.range) :
    memory'.clamp = memory.clamp := by
  obtain ⟨hmin, hmax⟩ := Prod.mk.injEq .. ▸ h
  funext l
  rw [clamp, clamp, hmin, hmax]

section Primed

variable {i j : Instance} {range : Lightness × Lightness} {c : Lightness} {y : OnOff}

/-- However often a lamp is switched, what it remembers stays the same as far as the range goes. -/
theorem Instance.Primed.settles (h : i.Primed range c)
    (hr : LightMemory.isRange range.1 range.2 = true)
    (hj : i.Settles (.lightness (y.select i.light)) j) :
    j.Primed range c ∧ j.present = .lightness (if y = .on then c else 0) := by
  have hvalid : LightMemory.isRange i.light.rangeMin i.light.rangeMax = true := by
    rw [← h.range] at hr
    exact hr
  have hc : i.light.clamp c = c := by
    rw [← h.last]
    exact LightMemory.clamp_eq_self_iff.mpr (LightMemory.isWithin_clamp hvalid _)
  have hselect : i.light.clamp (y.select i.light) = if y = .on then c else 0 := by
    cases y with
    | off => rfl
    | on =>
      have hon : i.light.onValue = c := by simp [LightMemory.onValue, h.default, h.last]
      rw [OnOff.select, hon, hc]
      rfl
  have hlight : j.light = i.light.noting (.lightness (if y = .on then c else 0)) := by
    rw [hj.light, ← hselect]
    rfl
  have hrange : j.light.range = i.light.range := by rw [hlight, LightMemory.range_noting]
  refine ⟨⟨?_, hrange.trans h.range, ?_⟩, ?_⟩
  · rw [hlight, LightMemory.default_noting, h.default]
  · rw [LightMemory.clamp_congr hrange, hlight, LightMemory.last_noting]
    by_cases hzero : (if y = .on then c else 0) = 0
    · rw [hzero]
      exact h.last
    · have hon : y = .on := by
        by_contra hoff
        exact hzero (if_neg hoff)
      rw [Value.lit?_lightness hzero, Option.getD_some, if_pos hon, hc]
  · rw [hj.present, ← hselect]
    rfl

end Primed

namespace Node

variable {n n₁ n' : Node} {e e' : UInt8} {i i₀ : Instance} {c : Lightness}
  {range : Lightness × Lightness} {s : Source} {F : Follow} {b : Binding Rule} {y : OnOff}

/-- The second element has a lamp that follows the switch of the first one, whose bindings are those
of helpers. -/
structure Switches (n : Node) (e' e : UInt8) : Prop where
  hosts : n.hosts e' .onOff = true
  helpers : ∀ b ∈ n.bindings.matching e' .onOff, b.IsHelper
  leads : ∃ b ∈ n.bindings.matching e' .onOff, b.link.target = e

theorem Switches.congr (h : n.Switches e' e) (hb : n'.bindings = n.bindings)
    (hh : n'.hosts e' .onOff = n.hosts e' .onOff) : n'.Switches e' e where
  hosts := hh.trans h.hosts
  helpers := hb ▸ h.helpers
  leads := hb ▸ h.leads

/-- The lamp of an element is primed, and something holds of it. -/
def Primes (n : Node) (e : UInt8) (range : Lightness × Lightness) (c : Lightness)
    (P : Instance → Prop) : Prop :=
  ∃ i, n.get? e .lightness = some i ∧ i.Primed range c ∧ P i

theorem onOffToLightness_eq {elements : List Element} {x : UInt8}
    (hi : instance? elements x .lightness = some i) (y : OnOff) :
    Rule.onOffToLightness elements x (.onOff y) =
      [.bound x (.lightness (y.select i.light))] := by
  cases y <;> simp only [Rule.onOffToLightness, hi] <;> rfl

/-- The helpers have nothing but lamps follow a switch. -/
theorem rule_of_isHelper (hb : b.IsHelper) (hs : b.link.sourceState = .onOff) :
    b.rule = Rule.onOffToLightness := by
  cases hb with
  | onOffToLightness => rfl
  | _ => cases hs

theorem primes_obey (hb : b.IsHelper) (hs : b.link.sourceState = .onOff) (hx : b.link.target = e)
    (hr : LightMemory.isRange range.1 range.2 = true) {P : Instance → Prop}
    (h : n.Primes e range c P) :
    (obey F (.onOff y) n b).Primes e range c
      (·.present = .lightness (if y = .on then c else 0)) := by
  subst hx
  obtain ⟨i, hi, hprimed, -⟩ := h
  have hrule : b.rule n.elements b.link.target (.onOff y) =
      [.bound b.link.target (.lightness (y.select i.light))] := by
    rw [rule_of_isHelper hb hs]
    exact onOffToLightness_eq hi y
  obtain ⟨j, he, hj⟩ := bound_settles (n := n.note (.followed b.link (.onOff y) n.depth))
    (w := .lightness (y.select i.light)) F hi rfl
  rw [obey_one hrule]
  exact ⟨j, he.after, hprimed.settles hr hj⟩

theorem Primes.keepsElement {P : Instance → Prop} (h : n.Primes e range c P)
    (hn : n.KeepsElement e n') :
    n'.Primes e range c P := by
  obtain ⟨i, hi, hprimed⟩ := h
  exact ⟨i, (hn.get? .lightness).trans hi, hprimed⟩

/-- What holds of a lamp that has been switched is kept by every binding of a switch. -/
theorem Primes.obey {P : Instance → Prop} (h : n.Primes e range c P) (hb : b.IsHelper)
    (hs : b.link.sourceState = .onOff) (hr : LightMemory.isRange range.1 range.2 = true)
    (hP : ∀ i : Instance, i.present = .lightness (if y = .on then c else 0) → P i) :
    (obey F (.onOff y) n b).Primes e range c P := by
  by_cases hx : b.link.target = e
  · obtain ⟨i, hi, hprimed, hpresent⟩ := primes_obey (F := F) (y := y) hb hs hx hr h
    exact ⟨i, hi, hprimed, hP i hpresent⟩
  · exact h.keepsElement (keepsElement_obey hb (Ne.symm hx) n)

theorem Switches.follow (h : n.Switches e' e) (hmax : n.depth < n.config.maxBindDepth.toNat)
    (hr : LightMemory.isRange range.1 range.2 = true) (hp : n.Primes e range c fun _ => True)
    (y : OnOff) : (n.follow e' .onOff (.onOff y)).Primes e range c
      (·.present = .lightness (if y = .on then c else 0)) := by
  obtain ⟨b, hb, hx⟩ := h.leads
  have hstate {b : Binding Rule} (hb : b ∈ n.bindings.matching e' .onOff) :
      b.link.sourceState = .onOff := (mem_matching hb).2.2
  obtain ⟨pre, post, hmatch⟩ := List.append_of_mem hb
  have hothers {b' : Binding Rule} (hb' : b' ∈ pre ++ post) :
      b' ∈ n.bindings.matching e' .onOff := by
    rw [hmatch]
    exact ((List.sublist_cons_self b post).append_left pre).subset hb'
  refine follow_through (I := fun n₁ => n₁.Primes e range c fun _ => True)
    (J := fun n₁ => n₁.Primes e range c (·.present = .lightness (if y = .on then c else 0)))
    rfl hmatch hmax (fun _ h => h) (fun _ _ h => h) (fun F b' hb' n₁ h₁ => ?_)
    (fun F n₁ h₁ => primes_obey (h.helpers b hb) (hstate hb) hx hr h₁)
    (fun F b' hb' n₁ h₁ => ?_) hp
  · have hmem := hothers (List.mem_append_left post hb')
    exact h₁.obey (h.helpers b' hmem) (hstate hmem) hr fun _ _ => trivial
  · have hmem := hothers (List.mem_append_right pre hb')
    exact h₁.obey (h.helpers b' hmem) (hstate hmem) hr fun _ => id

theorem Switches.request (h : n.Switches e' e) (hmax : n.depth < n.config.maxBindDepth.toNat)
    (hr : LightMemory.isRange range.1 range.2 = true) (hp : n.Primes e range c fun _ => True)
    (hs : s.triggersBindings = true) (y : OnOff) :
    (n.request ⟨e', .onOff, .onOff y, 0, 0, s⟩).2 = .success ∧
      (n.request ⟨e', .onOff, .onOff y, 0, 0, s⟩).1.Primes e range c
        (·.present = .lightness (if y = .on then c else 0)) := by
  obtain ⟨k, hk⟩ := hosts_iff.mp h.hosts
  have hcheck : n.check e' .onOff (.onOff y) = .success := by
    rw [check, h.hosts]
    rfl
  refine ⟨hcheck, ?_⟩
  obtain ⟨n₁, k', he, -, halike⟩ := start_follows hk hs (.onOff y)
  have hswitches : n₁.Switches e' e :=
    h.congr he.bindings ((hosts_iff.mpr ⟨k', he.after⟩).trans h.hosts.symm)
  have hlit := he.others e .lightness (by simp)
  have hprimes : n₁.Primes e range c fun _ => True := by
    obtain ⟨i, hi, hprimed⟩ := hp
    exact ⟨i, hlit.trans hi, hprimed⟩
  have hmax₁ : n₁.depth < n₁.config.maxBindDepth.toNat := by
    rw [he.depth, he.config]
    exact hmax
  have hstart : (n.request ⟨e', .onOff, .onOff y, 0, 0, s⟩).1 =
      n.start Node.follow e' .onOff (.onOff y) 0 0 s none := by
    simp only [Node.request, carryOut, hcheck]
  rw [hstart]
  exact (hswitches.follow hmax₁ hr hprimes y).keepsElement (halike.keepsElement e)

theorem Primes.present? {v : Value} (h : n.Primes e range c (·.present = v)) :
    n.present? e .lightness = some v := by
  obtain ⟨i, hi, -, rfl⟩ := h
  rw [Node.present?, hi, Option.map_some]

/-- Switched off and on again, a lamp without a default shows what it remembers, as far as its range
goes. -/
theorem IsReached.off_on (hn : n.IsReached) (h : n.Switches e' e)
    (hi : n.get? e .lightness = some i) (hdefault : i.light.default = 0) {s s' : Source}
    (hs : s.triggersBindings = true) (hs' : s'.triggersBindings = true) :
    let off := n.request ⟨e', .onOff, .onOff .off, 0, 0, s⟩
    let on := off.1.request ⟨e', .onOff, .onOff .on, 0, 0, s'⟩
    off.2 = .success ∧ off.1.present? e .lightness = some (.lightness 0) ∧ on.2 = .success ∧
      on.1.present? e .lightness = some (.lightness (i.light.clamp i.light.last)) := by
  intro off on
  have hr : LightMemory.isRange i.light.range.1 i.light.range.2 = true :=
    LightMemory.isRange_iff.mpr (hn.regular.instances e .lightness i hi).range
  have hmax : n.depth < n.config.maxBindDepth.toNat := hn.depth ▸ hn.sound.maxBindDepth_pos
  have hprimes : n.Primes e i.light.range (i.light.clamp i.light.last) fun _ => True :=
    ⟨i, hi, ⟨hdefault, rfl, rfl⟩, trivial⟩
  obtain ⟨hoff, hdark⟩ := h.request hmax hr hprimes hs .off
  have he : n.Evolves off.1 := (works_carryOut n _).evolves
  have hdepth : off.1.depth = n.depth := (nests_carryOut deepens_follow n _).depth
  have hmax' : off.1.depth < off.1.config.maxBindDepth.toNat := by
    rw [hdepth, he.config]
    exact hmax
  have hdark' : off.1.Primes e i.light.range (i.light.clamp i.light.last) fun _ => True := by
    obtain ⟨j, hj, hprimed, -⟩ := hdark
    exact ⟨j, hj, hprimed, trivial⟩
  obtain ⟨hon, hlit⟩ :=
    (h.congr he.bindings (he.hosts e' .onOff)).request hmax' hr hdark' hs' .on
  exact ⟨hoff, hdark.present?, hon, hlit.present?⟩

/-! ## What a lamp remembers -/

theorem IsBuilt.remembers (hn : n.IsBuilt) (hi : n.get? e .lightness = some i) :
    Moment.Remembers e .lightness i.present 65535 [] ⟨n, []⟩ where
  present := by
    rw [present?, hi]
    rfl
  last := by
    rw [last?, hi, Option.map_some, hn.holds holdsOfNew_light hi]
    rfl

/-- In every run in which no snapshot is loaded there is a list of all values that a lamp was made
to show, and at every moment on the way the lamp shows the last of them and remembers the last lit
one. So it remembers what it shows if it is lit and was made to show anything, and the last lit
value that it had since it was built exactly if it was built off, at full lightness, or was lit
since. Between two operations, a lamp without a default that is switched off and on again comes back
to what it remembers, and so to what it showed exactly if that is within its range. -/
theorem remembers_last_lit (hn : n.IsBuilt) (hi₀ : n.get? e .lightness = some i₀) :
    (∀ ops, (∀ s, .call (.restore s) ∉ ops) →
      ∃ vs, Moment.Shows NoRestore e .lightness ⟨n, []⟩ ⟨n.run ops, []⟩ vs) ∧
    (∀ c vs, Moment.Shows NoRestore e .lightness ⟨n, []⟩ c vs →
      ∃ i, c.node.get? e .lightness = some i ∧ i.present = vs.getLastD i₀.present ∧
        i.light.last = (vs.filterMap Value.lit?).getLastD 65535 ∧
        (∀ l, i.present = .lightness l → l ≠ 0 → vs ≠ [] → i.light.last = l) ∧
        (i.light.last = ((i₀.present :: vs).filterMap Value.lit?).getLastD 65535 ↔
          i₀.present.lit?.getD 65535 = 65535 ∨ ∃ v ∈ vs, v.lit?.isSome = true)) ∧
    ∀ ops vs e' i s s', Moment.Shows NoRestore e .lightness ⟨n, []⟩ ⟨n.run ops, []⟩ vs →
      (n.run ops).get? e .lightness = some i → i.light.default = 0 →
      (n.run ops).Switches e' e → s.triggersBindings = true → s'.triggersBindings = true →
        let off := (n.run ops).request ⟨e', .onOff, .onOff .off, 0, 0, s⟩
        let on := off.1.request ⟨e', .onOff, .onOff .on, 0, 0, s'⟩
        off.2 = .success ∧ off.1.present? e .lightness = some (.lightness 0) ∧ on.2 = .success ∧
          on.1.present? e .lightness = some (.lightness (i.light.clamp i.light.last)) ∧
          ∀ l, i.present = .lightness l → l ≠ 0 → vs ≠ [] →
            (on.1.present? e .lightness = some (.lightness l) ↔
              (Value.lightness l).IsWithin i.light.range) := by
  have hrestores : (Moment.mk n []).RestoresNothing := by
    simp [Moment.RestoresNothing]
  have hremembers {c : Moment} {vs : List Value}
      (hvs : Moment.Shows NoRestore e .lightness ⟨n, []⟩ c vs) :
      ∃ i, c.node.get? e .lightness = some i ∧ i.present = vs.getLastD i₀.present ∧
        i.light.last = (vs.filterMap Value.lit?).getLastD 65535 := by
    have hr := hvs.remembers hrestores (hn.remembers hi₀)
    obtain ⟨i, hi, hpresent⟩ := Option.map_eq_some_iff.mp hr.present
    have hlast := hr.last
    rw [last?, hi] at hlast
    exact ⟨i, hi, hpresent, Option.some.inj hlast⟩
  refine ⟨fun ops hops => ?_, fun c vs hvs => ?_, ?_⟩
  · have hadmits : n.Admits NoRestore ops := by
      refine admits_of_forall (fun _ x hx s hs => hops s ?_) n
      exact hs ▸ hx
    exact Moment.exists_shows (later_run hadmits) e .lightness
  · obtain ⟨i, hi, hpresent, hlast⟩ := hremembers hvs
    refine ⟨i, hi, hpresent, hlast, fun l hl hlit hne => ?_, ?_⟩
    · rw [hlast, getLastD_lit_of_getLastD hne (hpresent.symm.trans hl) hlit]
    -- What the lamp was built with only counts while nothing lit has been shown.
    · rw [hlast, getLastD_lit_cons, getLastD_lit_eq_iff, eq_comm (a := (65535 : Lightness))]
  · intro ops vs e' i s s' hvs hi hdefault hswitches hs hs' off on
    obtain ⟨hoff, hdark, hon, hlit⟩ :=
      IsReached.off_on ⟨n, ops, hn, rfl⟩ hswitches hi hdefault hs hs'
    refine ⟨hoff, hdark, hon, hlit, fun l hl hne hvs' => ?_⟩
    obtain ⟨i', hi', hpresent, hlast⟩ := hremembers hvs
    obtain rfl := Option.some.inj (hi'.symm.trans hi)
    rw [getLastD_lit_of_getLastD hvs' (hpresent.symm.trans hl) hne] at hlast
    rw [hlit, Option.some.injEq, Value.lightness.injEq, hlast, LightMemory.clamp_eq_self_iff]

def dimmedLamp : Node :=
  ⟨{}, [(Element.empty.set .lightness (some { Instance.new .lightness 16 32 with
      present := .lightness 1000, target := .lightness 1000 })).set .onOff
      (some { Instance.new .onOff 16 32 with present := .onOff .on, target := .onOff .on })],
    .withCapacity 30, .startingAt 0, .none, false, 0, []⟩

theorem isBuilt_dimmedLamp : dimmedLamp.IsBuilt :=
  ⟨⟨{}, [⟨[.lightness, .onOff], [.lightness 1000, .onOff .on], []⟩]⟩, 0, false, rfl⟩

/-- A lamp that was dimmed to another lightness comes back to that. -/
theorem remembers_last_lit_dimmedLamp :
    let ops : List Operation := [.call (.bindLightnessToOnOff 0 0),
      .call (.request (.application 0 (.lightness 3000) 0 0))]
    let n := dimmedLamp.run ops
    let off := n.request (.application 0 (.onOff .off) 0 0)
    let on := off.1.request (.application 0 (.onOff .on) 0 0)
    dimmedLamp.IsBuilt ∧ n.Switches 0 0 ∧ (∀ s, .call (.restore s) ∉ ops) ∧
      (∃ vs, vs ≠ [] ∧ Moment.Shows NoRestore 0 .lightness ⟨dimmedLamp, []⟩ ⟨n, []⟩ vs) ∧
      n.present? 0 .lightness = some (.lightness 3000) ∧
      n.last? 0 .lightness = some 3000 ∧
      off.1.present? 0 .lightness = some (.lightness 0) ∧
      on.1.present? 0 .lightness = some (.lightness 3000) := by
  intro ops n off on
  have hops : ∀ s, .call (.restore s) ∉ ops := by simp [ops]
  have hswitches : n.Switches 0 0 := by
    have hmatch : n.bindings.matching 0 .onOff =
        [⟨⟨.onOff, .lightnessActual, 0, 0⟩, Rule.onOffToLightness⟩] := rfl
    refine ⟨by decide +kernel, ?_, ?_⟩
    · rw [hmatch]
      exact List.forall_mem_singleton.mpr (.onOffToLightness 0 0)
    · rw [hmatch]
      exact ⟨_, List.mem_cons_self, rfl⟩
  have hlamp : (n.get? 0 .lightness).map (fun i => (i.present, i.light.default, i.light.range)) =
      some (.lightness 3000, 0, (1, 65535)) := by decide +kernel
  obtain ⟨i, hi, hparts⟩ := Option.map_eq_some_iff.mp hlamp
  simp only [Prod.mk.injEq] at hparts
  obtain ⟨hpresent, hdefault, hrange⟩ := hparts
  obtain ⟨hexists, hshows, hswitch⟩ := remembers_last_lit isBuilt_dimmedLamp (e := 0) rfl
  obtain ⟨vs, hvs⟩ := hexists ops hops
  obtain ⟨i', hi', hshown, -, hlast, -⟩ := hshows _ vs hvs
  obtain rfl := Option.some.inj (hi'.symm.trans hi)
  have hne : vs ≠ [] := by
    rintro rfl
    exact absurd (hpresent.symm.trans hshown) (by decide)
  obtain ⟨-, hoff, -, -, hback⟩ :=
    hswitch ops vs 0 i' .application .application hvs hi hdefault hswitches rfl rfl
  refine ⟨isBuilt_dimmedLamp, hswitches, hops, ⟨vs, hne, hvs⟩, ?_, ?_, hoff, ?_⟩
  · rw [present?, hi, Option.map_some, hpresent]
  · rw [last?, hi, Option.map_some, hlast 3000 hpresent (by decide) hne]
  · refine (hback 3000 hpresent (by decide) hne).mpr ?_
    rw [hrange]
    exact .inr (by decide)

/-- A lamp that was not touched since it was built does not remember how it was built, and comes
back at full lightness. -/
theorem forgotten_dimmedLamp :
    let n := dimmedLamp.run [.call (.bindLightnessToOnOff 0 0)]
    let off := n.request (.application 0 (.onOff .off) 0 0)
    let on := off.1.request (.application 0 (.onOff .on) 0 0)
    dimmedLamp.IsBuilt ∧ n.present? 0 .lightness = some (.lightness 1000) ∧
      (n.get? 0 .lightness).map Instance.light = some ⟨0, 65535, 1, 65535⟩ ∧
      off.1.present? 0 .lightness = some (.lightness 0) ∧
      on.1.present? 0 .lightness = some (.lightness 65535) := by
  intro n off on
  exact ⟨isBuilt_dimmedLamp, by decide +kernel, by decide +kernel, by decide +kernel,
    by decide +kernel⟩

end Node

end MeshNode
