import MeshNode.Proofs.Bindings.RepeatedChanges

/-! # Asking twice

A change at once, asked for a second time, changes nothing: not where the instance is, and not what
the bindings of the helpers made of the first time. Each of those bindings leads to instances that
no other of them reaches, and asks there for the same as before.
-/

namespace MeshNode

variable {b b' : Binding Rule} {e x : UInt8} {m : Model} {v w : Value} {i : Instance}
  {memory : LightMemory} {elements elements' : List Element} {l : Lightness}
  {behaviour : OnPowerUp}

/-! ## What bindings reach -/

theorem Link.eq_of_parts {l l' : Link} (hsourceState : l.sourceState = l'.sourceState)
    (htargetState : l.targetState = l'.targetState) (hsource : l.source = l'.source)
    (htarget : l.target = l'.target) : l = l' := by
  cases l
  cases l'
  simp only [Link.mk.injEq]
  exact ⟨hsourceState, htargetState, hsource, htarget⟩

namespace Binding.IsHelper

theorem not_reaches (hb : b.IsHelper) (hm : m.boundState? = some b.link.sourceState) :
    ¬ b.link.Reaches e m := by
  rintro ⟨-, htarget | ⟨hsource, -, rfl⟩⟩
  · have hsame := Option.some.inj (hm.symm.trans htarget)
    cases hb <;> cases hsame
  · rw [hsource] at hm
    cases hm

/-- Of two bindings of one state each reaches what the other does not. -/
theorem apart (hb : b.IsHelper) (hb' : b'.IsHelper) (hsource : b.link.source = b'.link.source)
    (hstate : b.link.sourceState = b'.link.sourceState) (hne : b.link ≠ b'.link)
    (h : b.link.Reaches x m) : ¬ b'.link.Reaches x m := by
  have hpower {b : Binding Rule} (hb : b.IsHelper) (hs : b.link.sourceState = .onPowerUp) :
      Model.level.boundState? ≠ some b.link.targetState := by
    cases hb with
    | onPowerUpToOnOff => exact (by decide : Model.level.boundState? ≠ some .onOff)
    | onPowerUpToLightness => exact (by decide : Model.level.boundState? ≠ some .lightnessActual)
    | _ => cases hs
  rintro ⟨htarget', h'⟩
  obtain ⟨htarget, h⟩ := h
  have hsame : b.link.targetState ≠ b'.link.targetState := fun hts =>
    hne (Link.eq_of_parts hstate hts hsource (htarget.trans htarget'.symm))
  rcases h with h | ⟨hs, ht, rfl⟩
  · rcases h' with h' | ⟨hs', ht', rfl⟩
    · exact hsame (Option.some.inj (h.symm.trans h'))
    · exact hpower hb (hstate.trans hs') h
  · rcases h' with h' | ⟨hs', ht', -⟩
    · exact hpower hb' (hstate.symm.trans hs) h'
    · exact hsame (ht.trans ht'.symm)

theorem rule_congr (hb : b.IsHelper) (h : ∀ m, b.link.Reaches b.link.target m →
      instance? elements' b.link.target m = instance? elements b.link.target m) :
    b.rule elements' b.link.target v = b.rule elements b.link.target v := by
  cases hb with
  | lightnessToLevel | levelToLightness | lightnessToOnOff => rfl
  | onOffToLightness a x =>
    have hlamp := h .lightness ⟨rfl, .inl rfl⟩
    simp only [Rule.onOffToLightness] at hlamp ⊢
    rw [hlamp]
  | onPowerUpToOnOff a x =>
    have hswitch := h .onOff ⟨rfl, .inl rfl⟩
    simp only [Rule.onPowerUpToOnOff] at hswitch ⊢
    rw [hswitch]
  | onPowerUpToLightness a x =>
    have hlamp := h .lightness ⟨rfl, .inl rfl⟩
    have hlevel := h .level ⟨rfl, .inr ⟨rfl, rfl, rfl⟩⟩
    simp only [Rule.onPowerUpToLightness] at hlamp hlevel ⊢
    rw [hlamp, hlevel]

theorem rule_cases (hb : b.IsHelper) (elements : List Element) (x : UInt8) (v : Value) :
    b.rule elements x v = [] ∨ (∃ w, b.rule elements x v = [.bound x w]) ∨
      ∃ l k, b.rule elements x v = [.bound x (.lightness l), .bound x (.level k)] := by
  cases hb with
  | lightnessToLevel =>
    simp only [Rule.lightnessToLevel]
    split <;> simp
  | levelToLightness =>
    simp only [Rule.levelToLightness]
    split <;> simp
  | lightnessToOnOff =>
    simp only [Rule.lightnessToOnOff]
    split <;> simp
  | onOffToLightness =>
    simp only [Rule.onOffToLightness]
    split <;> simp
  | onPowerUpToOnOff =>
    simp only [Rule.onPowerUpToOnOff]
    split
    · simp
    · simp
    · split <;> simp
    · simp
  | onPowerUpToLightness =>
    simp only [Rule.onPowerUpToLightness]
    split
    · split
      · split
        · exact .inr (.inr ⟨_, _, rfl⟩)
        · exact .inr (.inl ⟨_, rfl⟩)
      · exact .inl rfl
    · exact .inl rfl

theorem isLegal_of_mem (hb : b.IsHelper)
    (ht : ∀ e m i, instance? elements e m = some i → i.Typed m)
    (hw : .bound x w ∈ b.rule elements x v) : w.isLegal = true := by
  refine Value.isLegal_of_model fun hm => ?_
  obtain ⟨w', heq, hreach⟩ := hb.asks hw
  obtain rfl : w = w' := congrArg Request.value heq
  obtain ⟨-, htarget | ⟨-, -, hlevel⟩⟩ := hreach ht
  · rw [hm] at htarget
    cases htarget
  · cases hm.symm.trans hlevel

end Binding.IsHelper

/-! ## What lamps remember -/

theorem LightMemory.onValue_noting
    (h : isRange memory.rangeMin memory.rangeMax = true) :
    (memory.noting (.lightness (memory.clamp memory.onValue))).onValue = memory.onValue := by
  have hclamp : memory.clamp memory.onValue = memory.onValue :=
    clamp_eq_self_iff.mpr (isWithin_clamp h _)
  have hrange := clamp_congr (memory.range_noting (.lightness memory.onValue))
  rw [hclamp, onValue, hrange, default_noting, last_noting]
  by_cases hdefault : memory.default = 0
  · have hlast : memory.onValue = memory.clamp memory.last := by simp [onValue, hdefault]
    by_cases hzero : memory.onValue = 0
    · simp [hdefault, hzero, Value.lit?, hlast.symm]
    · simp [hdefault, Value.lit?_lightness hzero, hclamp]
  · simp [hdefault, onValue]

/-- The lamp has a range, and is to stay within it. -/
structure Instance.Aims (i : Instance) : Prop where
  isRange : LightMemory.isRange i.light.rangeMin i.light.rangeMax = true
  target : i.target.IsWithin i.light.range

theorem Instance.Aims.landed (h : i.Aims) (w : Value) (s : Source) (now : Nat) :
    (i.landed (Node.confine i w) s now).Aims := by
  have hrange : (i.landed (Node.confine i w) s now).light.range = i.light.range :=
    LightMemory.range_noting i.light (Node.confine i w)
  constructor
  · obtain ⟨hlo, hhi⟩ := Prod.mk.injEq .. ▸ hrange
    rw [hlo, hhi]
    exact h.isRange
  · rw [hrange]
    exact Node.isWithin_confine h.isRange w

/-- What a switch selects for a lamp is what it selects once the lamp is there. -/
theorem OnOff.select_landed (h : i.Aims) (y : OnOff) (s : Source) (now : Nat) :
    y.select (i.landed (Node.confine i (.lightness (y.select i.light))) s now).light =
      y.select i.light := by
  cases y with
  | off => rfl
  | on => exact LightMemory.onValue_noting h.isRange

theorem powerUpLightness?_landed (h : i.Aims) (hl : Rule.powerUpLightness? i behaviour = some l)
    (s : Source) (now : Nat) :
    Rule.powerUpLightness? (i.landed (Node.confine i (.lightness l)) s now) behaviour = some l := by
  cases behaviour with
  | off => exact hl
  | default =>
    obtain rfl := Option.some.inj hl
    exact congrArg some (LightMemory.onValue_noting h.isRange)
  | restore =>
    have htarget : i.target = .lightness l := by
      simp only [Rule.powerUpLightness?] at hl
      split at hl
      next l' hl' =>
        obtain rfl := Option.some.inj hl
        exact hl'
      next => cases hl
    have hwithin := h.target
    rw [htarget] at hwithin
    exact congrArg some (LightMemory.clamp_eq_self_iff.mpr hwithin)

namespace Node

variable {n n₁ n' : Node} {s : Source} {F : Follow}

/-! ## Obeying a binding -/

theorem lands_obey (hb : b.IsHelper) (hn : n.Typed)
    (hw : .bound b.link.target w ∈ b.rule n.elements b.link.target v) :
    n.Lands (obey F v n b) b.link.target w.model w .binding := by
  have hlegal := hb.isLegal_of_mem hn hw
  let told := n.note (.followed b.link v n.depth)
  have htold : n.Untouched told b.link.target w.model := ⟨rfl, fun _ => rfl⟩
  have hvalue {w' : Value} (h : Request.bound b.link.target w = .bound b.link.target w') : w = w' :=
    congrArg Request.value h
  rcases hb.rule_cases n.elements b.link.target v with hrule | ⟨w', hrule⟩ | ⟨l, k, hrule⟩
  · rw [hrule] at hw
    cases hw
  · rw [hrule, List.mem_singleton] at hw
    obtain rfl := hvalue hw
    rw [obey_one hrule]
    exact htold.lands (lands_bound F told b.link.target hlegal)
  · let lit := told.carryOut F (.bound b.link.target (.lightness l))
    have hboth : obey F v n b = lit.carryOut F (.bound b.link.target (.level k)) := by
      have hrule' : b.rule told.elements b.link.target v = _ := hrule
      rw [obey, hrule']
      rfl
    obtain ⟨-, hlit, hlevel⟩ := avoids_carryOut (F := F) (e := b.link.target) (m := .level)
      (r := .bound b.link.target (.lightness l)) rfl (by simp [Request.bound, Value.model]) told rfl
        hn
    rw [hrule, List.mem_pair] at hw
    rw [hboth]
    rcases hw with hw | hw
    · obtain rfl := hvalue hw
      have hlamp := avoids_carryOut (F := F) (e := b.link.target) (m := .lightness)
        (r := .bound b.link.target (.level k)) rfl (by simp [Request.bound, Value.model]) lit rfl
          hlit
      exact htold.lands ((lands_bound F told b.link.target hlegal).untouched hlamp.2.2)
    · obtain rfl := hvalue hw
      exact (htold.trans hlevel).lands (lands_bound F lit b.link.target hlegal)

theorem evolves_obey (hb : b.IsHelper) : n.Evolves (obey F v n b) := by
  -- Nothing follows what a binding asks for, so that nothing may as well follow it.
  have hquiet : obey F v n b = obey stay v n b := by
    refine List.foldl_ext _ _ _ fun n₁ r hr => ?_
    obtain ⟨w, rfl, -⟩ := hb.asks hr
    exact carryOut_of_quiet rfl n₁
  rw [hquiet]
  exact closedUnderBindings_evolves.obey (fun n _ _ _ => .refl n) v n b

/-- The second node is where a rule would have the first one. -/
def MeetsRule (n n' : Node) (rule : Rule) (x : UInt8) (v : Value) : Prop :=
  ∀ w, .bound x w ∈ rule n.elements x v → n.Lands n' x w.model w .binding

theorem MeetsRule.onOffToLightness (h : n.MeetsRule n' Rule.onOffToLightness x v)
    (hi : n.get? x .lightness = some i) (ha : i.Aims) :
    Rule.onOffToLightness n'.elements x v = Rule.onOffToLightness n.elements x v := by
  cases v with
  | onOff y =>
    have hrule := onOffToLightness_eq hi y
    obtain ⟨now, hj⟩ := (h (.lightness (y.select i.light)) (by rw [hrule]; simp)).get? hi
    have hrule' := onOffToLightness_eq hj y
    rwa [OnOff.select_landed ha, ← hrule] at hrule'
  | _ => simp [Rule.onOffToLightness]

theorem MeetsRule.onPowerUpToOnOff (h : n.MeetsRule n' Rule.onPowerUpToOnOff x v)
    (hi : n.get? x .onOff = some i) (ht : i.Typed .onOff) :
    Rule.onPowerUpToOnOff n'.elements x v = Rule.onPowerUpToOnOff n.elements x v := by
  cases v with
  | onPowerUp behaviour =>
    cases behaviour with
    | off | default => rfl
    | restore =>
      have hrule {n : Node} {j : Instance} (hj : n.get? x .onOff = some j) :
          Rule.onPowerUpToOnOff n.elements x (.onPowerUp .restore) = [.bound x j.target] := by
        have hj' : instance? n.elements x .onOff = some j := hj
        simp only [Rule.onPowerUpToOnOff, hj']
      have hlands := h i.target (by rw [hrule hi]; simp)
      rw [ht.target] at hlands
      obtain ⟨now, hj⟩ := hlands.get? hi
      rw [hrule hi, hrule hj]
      change [Request.bound x (confine i i.target)] = _
      rw [confine_of_ne (by rw [ht.target]; decide)]
  | _ => rfl

theorem MeetsRule.onPowerUpToLightness (h : n.MeetsRule n' Rule.onPowerUpToLightness x v)
    (hi : n.get? x .lightness = some i) (ha : i.Aims) (ht : i.Typed .lightness)
    (hh : n'.hosts x .level = n.hosts x .level) :
    Rule.onPowerUpToLightness n'.elements x v = Rule.onPowerUpToLightness n.elements x v := by
  cases v with
  | onPowerUp behaviour =>
    obtain ⟨l, hl⟩ : ∃ l, Rule.powerUpLightness? i behaviour = some l := by
      obtain ⟨g, hg⟩ := lightness_of_model ht.target
      cases behaviour <;> simp [Rule.powerUpLightness?, hg]
    have hrule := onPowerUpToLightness_eq hi hl
    obtain ⟨now, hj⟩ := (h (.lightness l) (by rw [hrule]; simp)).get? hi
    have hrule' := onPowerUpToLightness_eq hj (powerUpLightness?_landed ha hl .binding now)
    have hh' : (instance? n'.elements x .level).isSome =
        (instance? n.elements x .level).isSome := hh
    rwa [hh', ← hrule] at hrule'
  | _ => simp [Rule.onPowerUpToLightness]

/-- After a binding has been obeyed its rule asks for the same again, if its lamp keeps to its
range. -/
theorem rule_obey (hb : b.IsHelper) (hn : n.Typed)
    (hlamp : ∀ i, b.link.Reaches b.link.target .lightness →
      n.get? b.link.target .lightness = some i → i.Aims) :
    b.rule (obey F v n b).elements b.link.target v = b.rule n.elements b.link.target v := by
  have hlands : n.MeetsRule (obey F v n b) b.rule b.link.target v := fun w => lands_obey hb hn
  have hhosts := (evolves_obey (F := F) (v := v) (n := n) hb).hosts
  have habsent {m : Model} (hi : instance? n.elements b.link.target m = none) :
      instance? (obey F v n b).elements b.link.target m = none := by
    have hi' : n.get? b.link.target m = none := hi
    have hh := hhosts b.link.target m
    rw [hosts, hosts, hi'] at hh
    exact Option.not_isSome_iff_eq_none.mp (ne_true_of_eq_false hh)
  generalize obey F v n b = n' at hlands hhosts habsent ⊢
  cases hb with
  | lightnessToLevel | levelToLightness | lightnessToOnOff => rfl
  | onOffToLightness a x =>
    cases hi : instance? n.elements x .lightness with
    | none => simp [Rule.onOffToLightness, hi, habsent hi]
    | some i => exact hlands.onOffToLightness hi (hlamp i ⟨rfl, .inl rfl⟩ hi)
  | onPowerUpToOnOff a x =>
    cases hi : instance? n.elements x .onOff with
    | none => simp only [Rule.onPowerUpToOnOff, hi, habsent hi]
    | some i => exact hlands.onPowerUpToOnOff hi (hn x .onOff i hi)
  | onPowerUpToLightness a x =>
    cases hi : instance? n.elements x .lightness with
    | none => simp [Rule.onPowerUpToLightness, hi, habsent hi]
    | some i =>
      exact hlands.onPowerUpToLightness hi (hlamp i ⟨rfl, .inl rfl⟩ hi) (hn x .lightness i hi)
        (hhosts x .level)

/-! ## Obeying a binding again -/

/-- The binding has nothing left to ask for. -/
def Obeyed (n : Node) (b : Binding Rule) (v : Value) : Prop :=
  ∀ w, .bound b.link.target w ∈ b.rule n.elements b.link.target v →
    n.HasLanded b.link.target w.model w .binding

theorem obeyed_obey (hb : b.IsHelper) (hn : n.Typed)
    (hlamp : ∀ i, b.link.Reaches b.link.target .lightness →
      n.get? b.link.target .lightness = some i → i.Aims) :
    (obey F v n b).Obeyed b v := by
  intro w hw
  rw [rule_obey hb hn hlamp] at hw
  exact (lands_obey hb hn hw).hasLanded

theorem Obeyed.congr (h : n.Obeyed b v) (helements : n'.elements = n.elements)
    (htimers : n'.timers = n.timers) : n'.Obeyed b v := by
  intro w hw
  rw [helements] at hw
  refine (h w hw).untouched ⟨?_, fun purpose => by rw [htimers]⟩
  rw [get?, helements]
  rfl

theorem Obeyed.obey (h : n.Obeyed b v) (hb : b.IsHelper) (hn : n.Typed) (F : Follow) :
    n.Restates (Node.obey F v n b) := by
  have hnote : n.Restates (n.note (.followed b.link v n.depth)) := ⟨_, rfl⟩
  refine List.foldlRecOn (motive := n.Restates) _ _ hnote fun n₁ h₁ r hr => ?_
  obtain ⟨w, rfl, -⟩ := hb.asks hr
  have hlanded := (h w hr).untouched (h₁.untouched b.link.target w.model)
  exact h₁.trans (hlanded.bound F (hb.isLegal_of_mem hn hr))

/-- A binding stays obeyed when another one is obeyed that reaches nothing that it reaches. -/
theorem Obeyed.obey_apart (h : n.Obeyed b v) (hb : b.IsHelper) (hb' : b'.IsHelper) (hn : n.Typed)
    (happart : ∀ m, b.link.Reaches b.link.target m → ¬ b'.link.Reaches b.link.target m) :
    (Node.obey F v n b').Obeyed b v := by
  have huntouched {m : Model} (hm : b.link.Reaches b.link.target m) :
      n.Untouched (Node.obey F v n b') b.link.target m :=
    (avoids_obey hb' (happart m hm) n rfl hn).2.2
  intro w hw
  rw [hb.rule_congr fun m hm => (huntouched hm).get?] at hw
  obtain ⟨w', heq, hreach⟩ := hb.asks hw
  obtain rfl : w = w' := congrArg Request.value heq
  exact (h w hw).untouched (huntouched (hreach hn))

/-! ## Following a state again -/

/-- All bindings of the node are those of helpers, each link is registered once, and they can be
followed; and lamps keep to their ranges. -/
structure Tidy (n : Node) : Prop where
  typed : n.Typed
  isHelper : ∀ b ∈ n.bindings.bindings, b.IsHelper
  nodup : n.bindings.links.Nodup
  depth : n.depth < n.config.maxBindDepth.toNat
  aims : ∀ x i, n.get? x .lightness = some i → i.Aims

theorem Tidy.follow (h : n.Tidy) (hb : b ∈ n.bindings.bindings) (hstart : b.link.StartsAt e m)
    (v : Value) : (n.follow e m v).Obeyed b v := by
  have hhelper := h.isHelper b hb
  have hmem : b ∈ n.bindings.matching e b.link.sourceState :=
    List.mem_filter.mpr ⟨hb, by simp [hstart.1]⟩
  have hlinks : ((n.bindings.matching e b.link.sourceState).map Binding.link).Nodup :=
    h.nodup.sublist (List.filter_sublist.map _)
  obtain ⟨pre, post, hmatch⟩ := List.append_of_mem hmem
  -- Each link is registered once, so no other binding of the state reaches what this one does.
  have hothers : ∀ b' ∈ pre ++ post, b'.IsHelper ∧
      ∀ m, b.link.Reaches b.link.target m → ¬ b'.link.Reaches b.link.target m := by
    intro b' hb'
    have hmem' : b' ∈ n.bindings.matching e b.link.sourceState := by
      rw [hmatch]
      exact ((List.sublist_cons_self b post).append_left pre).subset hb'
    obtain ⟨hbound', hsource', hstate'⟩ := mem_matching hmem'
    have hne : b.link ≠ b'.link := by
      intro heq
      rw [hmatch, List.map_append, List.map_cons, List.nodup_middle, ← List.map_append] at hlinks
      exact (List.nodup_cons.mp hlinks).1 (heq ▸ List.mem_map_of_mem hb')
    exact ⟨h.isHelper b' hbound', fun m => hhelper.apart (h.isHelper b' hbound')
      (hstart.1.trans hsource'.symm) hstate'.symm hne⟩
  refine (follow_through (I := fun n₁ => n₁.Typed ∧
      ∀ m, b.link.Reaches b.link.target m → n.Untouched n₁ b.link.target m)
    (J := fun n₁ => n₁.Typed ∧ n₁.Obeyed b v) hstart.2 hmatch h.depth
    (fun _ _ => ⟨h.typed, fun _ _ => ⟨rfl, fun _ => rfl⟩⟩)
    (fun _ _ h₁ => ⟨h₁.1, h₁.2.congr rfl rfl⟩)
    (fun F b' hb' n₁ h₁ => ?_) (fun F n₁ h₁ => ?_) (fun F b' hb' n₁ h₁ => ?_)
    ⟨h.typed, fun m _ => .refl n _ m⟩).2
  · obtain ⟨hhelper', hm⟩ := hothers b' (List.mem_append_left post hb')
    exact ⟨(evolves_obey hhelper').typed h₁.1, fun m hreach => (h₁.2 m hreach).trans
      (avoids_obey hhelper' (hm m hreach) n₁ rfl h₁.1).2.2⟩
  · refine ⟨(evolves_obey hhelper).typed h₁.1, obeyed_obey hhelper h₁.1 fun i hreach hi => ?_⟩
    rw [(h₁.2 .lightness hreach).get?] at hi
    exact h.aims _ i hi
  · obtain ⟨hhelper', hm⟩ := hothers b' (List.mem_append_right pre hb')
    exact ⟨(evolves_obey hhelper').typed h₁.1, h₁.2.obey_apart hhelper hhelper' h₁.1 hm⟩

/-- Bindings that have been obeyed can be followed again without effect. -/
theorem follow_obeyed (hn : n.Typed)
    (h : ∀ b ∈ n.bindings.bindings, b.IsHelper ∧ (b.link.StartsAt e m → n.Obeyed b v)) :
    n.Restates (n.follow e m v) := by
  obtain ⟨log, depth, heq⟩ : ∃ log depth, n.follow e m v = { n with log, depth } := by
    refine follow_induct (motive := fun n' => ∃ log depth, n' = { n with log, depth }) ?_ ?_
      ⟨n.log, n.depth, rfl⟩
    · rintro n₁ depth ⟨log, _, rfl⟩
      exact ⟨log, depth, rfl⟩
    · rintro n₁ room b hb hsource hstate ⟨log, depth, rfl⟩
      obtain ⟨hhelper, hobeyed⟩ := h b hb
      have hobeyed' : Obeyed { n with log, depth } b v :=
        (hobeyed ⟨hsource, hstate⟩).congr rfl rfl
      obtain ⟨log', heq⟩ := hobeyed'.obey hhelper hn (followBindings room)
      exact ⟨log', depth, heq⟩
  refine ⟨log, ?_⟩
  have hdepth := (deepens_follow n e m v).depth
  rw [heq] at hdepth ⊢
  cases hdepth
  rfl

/-! ## Asking again -/

theorem Tidy.landed (h : n.Tidy) (hi : n.get? e m = some i) (hv : v.model = m) (s : Source)
    (log : List Effect) : Tidy { n.landed e m (confine i v) s with log } where
  typed e' m' j hj := by
    rcases get?_modify_eq_some (n := n) hj with hj | ⟨rfl, rfl, k, hk, rfl⟩
    · exact h.typed e' m' j hj
    · exact Instance.typed_cleared { k with source := s } ((model_confine i v).trans hv) s n.now
  isHelper := h.isHelper
  nodup := h.nodup
  depth := h.depth
  aims x j hj := by
    rcases get?_modify_eq_some (n := n) hj with hj | ⟨rfl, rfl, k, hk, rfl⟩
    · exact h.aims x j hj
    · obtain rfl := Option.some.inj (hi.symm.trans hk)
      exact (h.aims x i hi).landed v s n.now

/-- Nothing is left to do of a change at once: the instance is where it would put it, and the
bindings that follow it have been obeyed. -/
structure NothingLeft (n : Node) (e : UInt8) (m : Model) (v : Value) (s : Source) : Prop where
  typed : n.Typed
  hasLanded : n.HasLanded e m v s
  obeyed : s.triggersBindings = true → ∀ i, n.get? e m = some i → ∀ b ∈ n.bindings.bindings,
    b.IsHelper ∧ (b.link.StartsAt e m → n.Obeyed b (confine i v))

theorem Tidy.start (h : n.Tidy) (hi : n.get? e m = some i) (hv : v.model = m) :
    (n.start Node.follow e m v 0 0 s none).NothingLeft e m v s := by
  obtain ⟨log, es, heq, -⟩ := start_lands (v := v) (s := s) (F := Node.follow) hi
  have htidy := h.landed hi hv s log
  have hlands : n.Lands { n.landed e m (confine i v) s with log } e m v s :=
    (lands_landed hi).untouched ⟨rfl, fun _ => rfl⟩
  generalize { n.landed e m (confine i v) s with log } = first at heq htidy hlands
  obtain ⟨hbindings, htyped, hu⟩ : (first.passOn Node.follow e m (confine i v) s).bindings =
      first.bindings ∧ (first.passOn Node.follow e m (confine i v) s).Typed ∧
        first.Untouched (first.passOn Node.follow e m (confine i v) s) e m := by
    rw [passOn]
    split
    · refine avoids_follow (fun b hb => ⟨htidy.isHelper b hb, fun hstart => ?_⟩) first _ rfl
        htidy.typed
      exact (htidy.isHelper b hb).not_reaches hstart.2
    · exact ⟨rfl, htidy.typed, .refl first e m⟩
  have hlands' := hlands.untouched hu
  rw [heq]
  refine ⟨htyped, hlands'.hasLanded.untouched ⟨rfl, fun _ => rfl⟩, fun hs j hj b hb => ?_⟩
  have hmem : b ∈ first.bindings.bindings := hbindings ▸ hb
  refine ⟨htidy.isHelper b hmem, fun hstart => ?_⟩
  have hsame : confine j v = confine i v := by
    obtain ⟨now, hlanded⟩ := hlands'.get? hi
    obtain rfl := Option.some.inj (hlanded.symm.trans hj)
    exact confine_landed i v _ s now
  rw [hsame, passOn, if_pos hs]
  exact (htidy.follow hmem hstart _).congr rfl rfl

theorem NothingLeft.start (h : n.NothingLeft e m v s) (hi : n.get? e m = some i) :
    n.Restates (n.start Node.follow e m v 0 0 s none) := by
  obtain ⟨log, ht⟩ := start_lands (v := v) (s := s) (F := Node.follow) hi
  rw [h.hasLanded.landed_eq hi] at ht
  refine .trans ?_ ht.restates
  rw [passOn]
  split
  next hs =>
    refine .trans ⟨log, rfl⟩ (follow_obeyed (n := { n with log }) h.typed fun b hb => ?_)
    obtain ⟨hhelper, hobeyed⟩ := h.obeyed hs i hi b hb
    exact ⟨hhelper, fun hstart => (hobeyed hstart).congr rfl rfl⟩
  next => exact ⟨log, rfl⟩

/-! ## Nodes that come of runs -/

theorem nodup_register {table : BindingTable Rule} (h : table.links.Nodup) (link : Link)
    (rule : Rule) : (table.register link rule).1.links.Nodup := by
  rw [BindingTable.register]
  split
  · exact h
  next hnew =>
    split
    · exact h
    · simp only [BindingTable.links, List.map_append, List.map_singleton]
      exact List.concat_eq_append ▸ h.concat hnew

theorem nodup_links_handle (hn : n.Typed) (h : n.bindings.links.Nodup) (x : Call) :
    (n.handle x).bindings.links.Nodup := by
  rcases bindings_cases hn x with heq | ⟨-, hne⟩
  · rwa [heq]
  · cases x with
    | bind | bindOnOffToOnPowerUp | bindLightnessToOnPowerUp => exact nodup_register h _ _
    | bindLightnessToLevel | bindLightnessToOnOff =>
      exact nodup_register (nodup_register h _ _) _ _
    | _ => exact absurd rfl hne

theorem nodup_links_steps {P : Node → Call → Prop} (hn : n.Sound) (hs : Steps P n n')
    (h : n.bindings.links.Nodup) : n'.bindings.links.Nodup := by
  induction hs with
  | refl => exact h
  | @tail n₁ n₂ hs hstep ih =>
    have hsound := hn.steps hs
    cases hstep with
    | call x hx => exact nodup_links_handle hsound.typed ih x
    | @expiry _ timer ts _ =>
      have hpopped : ({ n₁ with timers := ts } : Node).Typed := hsound.typed
      rw [bindings_onTimer hpopped]
      exact ih
    | passage => exact ih

/-- A run in which only helpers register bindings, and nothing is reset or restored, leaves the node
tidy. -/
theorem IsBuilt.tidy {ops : List Operation} (hn : n.IsBuilt)
    (hbind : ∀ link rule, .call (.bind link rule) ∉ ops)
    (hrestore : ∀ s, .call (.restore s) ∉ ops) (hreset : .call .reset ∉ ops) :
    (n.run ops).Tidy := by
  have hreached : (n.run ops).IsReached := ⟨n, ops, hn, rfl⟩
  have hsteps := run_steps (admits_helpersOnly hbind n)
  refine ⟨hreached.sound.typed, hn.isHelper hsteps, nodup_links_steps hn.sound hsteps ?_, ?_,
    fun x i hi => ?_⟩
  · simp [BindingTable.links, hn.bindings]
  · rw [hreached.depth]
    exact hreached.sound.maxBindDepth_pos
  · have hminds : n.Admits (HelpersNoRestore True) ops :=
      admits_helpersNoRestore hbind hrestore (fun _ => hreset) (List.Subset.refl ops) n
    obtain ⟨hlit, -⟩ := hn.lit_run hminds hi
    exact ⟨hlit.isRange, (hlit.keeps hi).isWithin_target (.inl (.inl trivial))⟩

/-- Asking an instance for a legal value at once a second time succeeds like the first time, and
changes nothing in the node, the number of alarms armed so far included, but for what is done to the
outside: if only helpers have registered bindings and nothing has been reset or restored. -/
theorem request_twice {n₀ : Node} {ops : List Operation} {r : Request} (hn₀ : n₀.IsBuilt)
    (hbind : ∀ link rule, .call (.bind link rule) ∉ ops)
    (hrestore : ∀ s, .call (.restore s) ∉ ops) (hreset : .call .reset ∉ ops) (hn : n = n₀.run ops)
    (hr : r = ⟨e, m, v, 0, 0, s⟩) (hh : n.hosts e m = true) (hv : v.model = m)
    (hlegal : v.isLegal = true) :
    (n.request r).2 = .success ∧ ((n.request r).1.request r).2 = .success ∧
      ((n.request r).1.request r).1 =
        { (n.request r).1 with log := ((n.request r).1.request r).1.log } ∧
      ((n.request r).1.request r).1.timers.sequence = (n.request r).1.timers.sequence := by
  subst hn hr hv
  obtain ⟨i, hi⟩ := hosts_iff.mp hh
  have hstart {n : Node} (hh : n.hosts e v.model = true) :
      n.request ⟨e, v.model, v, 0, 0, s⟩ =
        (n.start Node.follow e v.model v 0 0 s none, .success) := by
    have hcheck : n.check e v.model v = .success := by
      simp [check, hh, hlegal]
    simp only [request, carryOut, hcheck]
  have htidy := hn₀.tidy hbind hrestore hreset
  have hrests := htidy.start (s := s) hi rfl
  have hh' : ((n₀.run ops).start Node.follow e v.model v 0 0 s none).hosts e v.model = true :=
    ((evolves_start evolves_follow rfl (by simp)).hosts e v.model).trans hh
  obtain ⟨j, hj⟩ := hosts_iff.mp hh'
  obtain ⟨log, heq⟩ := hrests.start hj
  rw [hstart hh, hstart hh', heq]
  exact ⟨rfl, rfl, rfl, rfl⟩

/-- A lamp that is fading in, and is to be restored at power-up, goes to where it was fading to, and
the level on its element with it. Restoring it once more changes nothing. -/
theorem request_twice_poweredLamp :
    let n := poweredLamp.run [.call (.setLightRange 0 10000 50000),
      .call (.bindLightnessToOnPowerUp 0 0), .call (.bindLightnessToLevel 0 0),
      .call (.request (.application 0 (.lightness 20000) 4000 0)), .advance 1000]
    let r : Request := ⟨0, .powerOnOff, .onPowerUp .restore, 0, 0, .client⟩
    let first := (n.request r).1
    n.present? 0 .lightness = some (.lightness 5000) ∧
      first.present? 0 .lightness = some (.lightness 20000) ∧
      first.present? 0 .level = some (.level (-12768)) ∧ (first.request r).2 = .success ∧
      (first.request r).1 = { first with log := (first.request r).1.log } ∧
      (first.request r).1.timers.sequence = first.timers.sequence := by
  intro n r first
  have hh : n.hosts 0 .powerOnOff = true := by decide +kernel
  obtain ⟨-, hagain, hsame⟩ := request_twice (n := n) (r := r) isBuilt_poweredLamp (by simp)
    (by simp) (by simp) rfl rfl hh rfl rfl
  exact ⟨by decide +kernel, by decide +kernel, by decide +kernel, hagain, hsame⟩

end Node

end MeshNode
