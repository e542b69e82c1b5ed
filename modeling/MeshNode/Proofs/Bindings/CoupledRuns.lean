import MeshNode.Proofs.Bindings.CoupledCalls

/-! # Coupled states in a run

Every call that touches neither the bindings nor what the way back relies on keeps a node tuned. If
nothing is in progress for a scene or for a binding, and the calls ask for nothing in their name,
the two states are in step after each operation if they were before.
-/

namespace MeshNode

/-- The calls that keep a node tuned. Asked strictly, they set no value for a scene, a binding or a
snapshot. -/
def Coupling.Permits (c : Coupling) (strict : Prop) : Call → Prop
  | .request r => strict → r.source.triggersBindings = true
  | .recallScene .. => ¬ strict
  | .restore s => ¬ strict ∧ (s.validate = .ok () → c.keeps s.image.light)
  | .setLightRange .. => c.KeepsRanges
  | x => x.registrations = []

namespace Node

/-- Every change that is in progress was asked for by a client or the application. -/
def IsDirect (n : Node) : Prop :=
  ∀ e m i, n.get? e m = some i → i.phase ≠ .idle → i.source = .client ∨ i.source = .application

/-- The node comes of a new one by a run in which the helper registers two bindings at some time and
no others are registered. -/
def IsBoundBy (helper : Node → Node × Registration × Registration) (n : Node) : Prop :=
  ∃ (n₀ : Node) (before after : List Operation), n₀.IsBuilt ∧
    (helper (n₀.run before)).2 = (.added, .added) ∧
    (∀ x, .call x ∈ before ++ after → x.registrations = []) ∧
    n = (helper (n₀.run before)).1.run after

variable {n n' : Node} {x : Call} {c : Coupling} {strict : Prop} {table : BindingTable Rule}
  {ops : List Operation}

/-! ## Calls -/

theorem StaysInStep.foldl {α : Type} {f : Node → α → Node} {as : List α}
    (h : n.StaysInStep c strict n')
    (hf : ∀ (n : Node) a, a ∈ as → n.Tuned c strict → n.StaysInStep c strict (f n a)) :
    n.StaysInStep c strict (as.foldl f n') :=
  List.foldlRecOn as f h fun n₁ h₁ a ha => h₁.trans (hf n₁ a ha h₁.tuned)

theorem Tuned.tells (h : n.Tuned c strict) (ht : n.Tells n') : n.StaysInStep c strict n' :=
  h.alike ht.alike

theorem Tuned.storeScene (h : n.Tuned c strict) (e : UInt8) (slot : Nat) :
    n.StaysInStep c strict (n.storeScene e slot).1 := by
  rcases storeScene_cases n e slot with ⟨heq, -⟩ | ⟨models, heq⟩
  · rw [heq]
    exact .refl h
  · rw [heq]
    refine StaysInStep.foldl (StaysInStep.foldl (.refl h) fun n m _ h => ?_) fun n m _ h => ?_
    · exact h.books e m (fun _ => rfl) fun _ _ => id
    · exact h.tells (tells_save n e m)

theorem Tuned.recallScene (h : n.Tuned c strict) (hs : ¬ strict) (e : UInt8) (slot t : Nat) :
    n.StaysInStep c strict (n.recallScene e slot t).1 := by
  rcases recallScene_cases n e slot t with ⟨heq, -⟩ | ⟨requests, -, heq⟩
  · rw [heq]
    exact .refl h
  · rw [heq]
    exact StaysInStep.foldl (.refl h) fun n r _ h => h.carryOut r fun hstrict => absurd hstrict hs

theorem Tuned.powerUp (h : n.Tuned c strict) : n.StaysInStep c strict n.powerUp.1 := by
  refine StaysInStep.foldl (.refl h) ?_
  rintro n ⟨e, m, i⟩ hmem h
  obtain rfl : m = .powerOnOff := of_decide_eq_true (List.mem_filter.mp hmem).2
  dsimp only
  rw [h.follow_eq fun hend => c.not_isEnd rfl hend.1]
  exact .refl h

theorem Tuned.setLightDefault (h : n.Tuned c strict) (e : UInt8) (l : Lightness) :
    n.StaysInStep c strict (n.setLightDefault e l).1 := by
  rw [Node.setLightDefault]
  split
  · refine StaysInStep.tells (StaysInStep.tells ?_ (tells_save ..)) (tells_emit ..)
    exact h.books e .lightness (fun _ => rfl) fun i _ => c.keeps_default i.light l
  · exact h.tells (tells_emit ..)

theorem Tuned.setLightRange (h : n.Tuned c strict) (hc : c.KeepsRanges) (e : UInt8)
    (lo hi : Lightness) : n.StaysInStep c strict (n.setLightRange e lo hi).1 := by
  rcases setLightRange_cases n e lo hi with ⟨status, -, heq⟩ | ⟨i, light, hget, hrange, rfl, heq⟩
  · rw [heq]
    exact h.tells (tells_emit ..)
  · have hset : n.StaysInStep c strict
        (n.retuned e { i.light with rangeMin := lo, rangeMax := hi }) := by
      refine h.books e .lightness (fun _ => rfl) fun j hj hkeeps => ?_
      obtain rfl := Option.some.inj (hget.symm.trans hj)
      exact hc _ lo hi hrange hkeeps
    rcases heq with heq | ⟨l, heq⟩
    · rw [heq]
      exact (hset.tells (tells_save ..)).tells (tells_emit ..)
    · rw [heq]
      exact hset.trans (hset.tuned.carryOut _ fun _ => rfl)

theorem present?_reset (n : Node) (e : UInt8) (m : Model) :
    n.reset.present? e m = n.present? e m := by
  rw [present?, present?, get?_reset, Option.map_map]
  rfl

theorem Tuned.reset (h : n.Tuned c strict) (hs : n.Sound) : n.StaysInStep c strict n.reset where
  tuned :=
    { bindings := h.bindings
      depth := h.depth
      maxBindDepth := h.maxBindDepth
      typed := hs.reset.typed
      lamp := by
        obtain ⟨i, hi, hkeeps⟩ := h.lamp
        exact ⟨i.reset, by rw [get?_reset, hi, Option.map_some], hkeeps⟩
      mate := by
        obtain ⟨i, hi⟩ := h.mate
        exact ⟨i.reset, by rw [get?_reset, hi, Option.map_some]⟩
      ready := by
        intro e m j hj
        rw [get?_reset] at hj
        obtain ⟨i, -, rfl⟩ := Option.map_eq_some_iff.mp hj
        exact ⟨fun _ hbusy => absurd hbusy (by simp [Instance.reset]), fun hr => by cases hr⟩ }
  inStep _ hin := by
    refine ⟨hin.bindings, ?_⟩
    rw [Fits, present?_reset, present?_reset]
    exact hin.fits

theorem Tuned.restore (h : n.Tuned c strict) (hs : n.Sound) (hstrict : ¬ strict) (s : Snapshot)
    (hc : s.validate = .ok () → c.keeps s.image.light) :
    n.StaysInStep c strict (n.handle (.restore s)) := by
  rcases restore_cases n s with ⟨-, heq⟩ | ⟨hv, hh, -, heq⟩
  · rw [heq]
    exact .refl h
  · rw [heq]
    obtain ⟨i, hi⟩ := hosts_iff.mp hh
    have he : n.Edits (n.loaded s.image) s.image.element s.image.model i (i.load s.image) :=
      (((Edits.refl hi).alike (alike_cancel _ _)).alike (alike_cancel _ _)).modify _
    have ht := (h.tuning _ _).edits he ((hs.loaded hv).typed _ _ _ he.after) fun _ => hc hv
    refine ⟨ht.tuned he.after ⟨fun hs => absurd hs hstrict, fun hr => ?_⟩, ?_⟩
    · cases hr
    · exact fun hs => absurd hs hstrict

theorem Tuned.handle (h : n.Tuned c strict) (hs : n.Sound) (hx : c.Permits strict x) :
    n.StaysInStep c strict (n.handle x) := by
  cases x with
  | receive g message => exact h.receive g message
  | request r => exact h.carryOut r hx
  | query e m => exact h.tells (tells_emit n _)
  | publish e m => exact h.tells (tells_publish n e m)
  | publishPeriodically e m =>
    rw [Node.handle, publishPeriodically_fst]
    exact h.tells (tells_publish n e m)
  | sendStatus e m dst appKey unicast => exact h.tells (tells_sendStatus n e m _ _ _)
  | storeScene e slot => exact h.storeScene e slot
  | recallScene e slot transition => exact h.recallScene hx e slot transition
  | powerUp => exact h.powerUp
  | setLightDefault e l => exact h.setLightDefault e l
  | setLightRange e lo hi => exact h.setLightRange hx e lo hi
  | reset => exact h.reset hs
  | restore s => exact h.restore hs hx.1 s hx.2
  | listen m name => exact h.alike ⟨rfl, rfl, rfl, rfl⟩
  | keepSaved e m => exact h.books e m (fun _ => rfl) fun _ _ => id
  | bind | bindLightnessToLevel | bindLightnessToOnOff | bindOnOffToOnPowerUp
  | bindLightnessToOnPowerUp => cases hx

/-! ## Steps and runs -/

theorem Tuned.onTimer (h : n.Tuned c strict) (timer : Timer) :
    n.StaysInStep c strict (n.onTimer timer) := by
  obtain ⟨e, m, rfl | rfl⟩ := timer_cases timer
  · exact h.onTransition e m
  · exact h.books e m (fun _ => rfl) fun _ _ => id

theorem Tuned.step (h : n.Tuned c strict) (hs : n.Sound)
    (hstep : Step (fun _ => c.Permits strict) n n') : n.StaysInStep c strict n' := by
  cases hstep with
  | call x hx => exact h.handle hs hx
  | @expiry horizon timer ts hp =>
    have hpopped : n.StaysInStep c strict { n with timers := ts } := h.alike ⟨rfl, rfl, rfl, rfl⟩
    exact hpopped.trans (hpopped.tuned.onTimer timer)
  | passage hp => exact h.alike ⟨rfl, rfl, rfl, rfl⟩

theorem Tuned.steps (h : n.Tuned c strict) (hs : n.Sound)
    (hsteps : Steps (fun _ => c.Permits strict) n n') : n.StaysInStep c strict n' := by
  induction hsteps with
  | refl => exact .refl h
  | tail hsteps hstep ih => exact ih.trans (ih.tuned.step (hs.steps hsteps) hstep)

theorem Tuned.run (h : n.Tuned c strict) (hs : n.Sound)
    (hops : ∀ x, .call x ∈ ops → c.Permits strict x) : n.StaysInStep c strict (n.run ops) :=
  h.steps hs (run_steps (admits_of_forall (fun _ => hops) n))

/-! ## From the building on -/

theorem holdsOfNew_light : HoldsOfNew fun _ i => i.light = .initial where
  new _ _ _ := rfl
  value _ _ h := h
  saved _ _ h := h

theorem IsBuilt.tuned (h : n.IsBuilt) (hlamp : n.hosts c.lamp .lightness)
    (hmate : n.hosts c.mate c.model) : n.Tuned c strict where
  bindings := .inl h.bindings
  depth := h.depth
  maxBindDepth := h.sound.maxBindDepth_pos
  typed := h.sound.typed
  lamp := by
    obtain ⟨i, hi⟩ := hosts_iff.mp hlamp
    refine ⟨i, hi, ?_⟩
    rw [h.holds holdsOfNew_light hi]
    exact c.keeps_initial
  mate := hosts_iff.mp hmate
  ready e m i hi := by
    obtain ⟨-, v, -, hc⟩ := h.isFresh hi
    obtain ⟨-, -, hremaining, hdelay, -, -, -, hedge⟩ := Course.mk.injEq .. ▸ hc
    refine ⟨fun _ hbusy => ?_, fun hr => ?_⟩
    · rw [hremaining, hdelay] at hbusy
      simp at hbusy
    · rw [hedge] at hr
      cases hr

theorem Tuned.bound (h : n.Tuned c strict) (hb : table.bindings = c.bindings) :
    ({ n with bindings := table } : Node).Tuned c strict :=
  { h with bindings := .inr hb }

theorem Tuned.strictly (h : n.Tuned c False) (hd : n.IsDirect) : n.Tuned c True where
  toHostsCoupling := h.toHostsCoupling
  ready e m i hi := by
    refine ⟨fun _ hbusy => ?_, (h.ready e m i hi).resolved⟩
    have hphase : i.phase ≠ .idle := by
      rw [ne_eq, Instance.phase_eq_idle_iff]
      omega
    rcases hd e m i hi hphase with hs | hs
    · rw [hs]
      rfl
    · rw [hs]
      rfl

/-! ### Bindings -/

theorem bindings_handle (hn : n.Typed) (hx : x.registrations = []) :
    (n.handle x).bindings = n.bindings := by
  rcases bindings_cases hn x with heq | ⟨-, hne⟩
  · exact heq
  · exact absurd hx hne

theorem bindings_step (h : n.Sound) (hs : Step (fun _ x => x.registrations = []) n n') :
    n'.bindings = n.bindings := by
  cases hs with
  | call x hx => exact bindings_handle h.typed hx
  | @expiry horizon timer ts hp =>
    have hpopped : ({ n with timers := ts } : Node).Typed := h.typed
    exact bindings_onTimer hpopped timer
  | passage hp => rfl

theorem bindings_steps (h : n.Sound) (hs : Steps (fun _ x => x.registrations = []) n n') :
    n'.bindings = n.bindings := by
  induction hs with
  | refl => rfl
  | tail hsteps hs ih => exact (bindings_step (h.steps hsteps) hs).trans ih

theorem bindings_run (h : n.Sound) (hops : ∀ x, .call x ∈ ops → x.registrations = []) :
    (n.run ops).bindings = n.bindings :=
  bindings_steps h (run_steps (admits_of_forall (fun _ => hops) n))

theorem bindings_of_added {link : Link} {rule : Rule}
    (h : (table.register link rule).2 = .added) :
    (table.register link rule).1.bindings = table.bindings ++ [⟨link, rule⟩] := by
  rw [BindingTable.register] at h ⊢
  split at h
  · cases h
  next hnew =>
    rw [if_neg hnew]
    split at h
    · cases h
    next hroom => rw [if_neg hroom]

theorem bindings_couple (h : n.bindings.bindings = [])
    (hadded : (c.couple n).2 = (.added, .added)) :
    (c.couple n).1.bindings.bindings = c.bindings := by
  obtain ⟨hforth, hhome⟩ := Prod.mk.inj hadded
  refine (bindings_of_added hhome).trans ?_
  have hfirst := bindings_of_added hforth
  rw [h] at hfirst
  exact congrArg (· ++ [c.home]) hfirst

/-! ### Coupled nodes -/

theorem Fits.hosts (h : n.Fits c) : n.hosts c.lamp .lightness ∧ n.hosts c.mate c.model := by
  obtain ⟨l, w, hl, hw, -⟩ := h
  constructor
  · obtain ⟨i, hi, -⟩ := Option.map_eq_some_iff.mp hl
    exact hosts_iff.mpr ⟨i, hi⟩
  · obtain ⟨i, hi, -⟩ := Option.map_eq_some_iff.mp hw
    exact hosts_iff.mpr ⟨i, hi⟩

theorem Tuned.isDirect (h : n.Tuned c True) : n.IsDirect := by
  intro e m i hi hphase
  rw [ne_eq, Instance.phase_eq_idle_iff, not_not, or_comm] at hphase
  have hs := (h.ready e m i hi).heard trivial hphase
  cases hsource : i.source with
  | client => exact .inl rfl
  | application => exact .inr rfl
  | binding | scene =>
    rw [hsource] at hs
    cases hs

theorem IsBoundBy.sound (h : n.IsBoundBy c.couple) : n.Sound := by
  obtain ⟨n₀, before, after, hn, -, -, rfl⟩ := h
  have hcoupled : (c.couple (n₀.run before)).1.Sound := { hn.sound.run before with }
  exact hcoupled.run after

theorem permits_loose (hx : x.registrations = []) : c.loose.Permits False x := by
  cases x with
  | request r => exact False.elim
  | recallScene e slot transition => exact id
  | restore s => exact ⟨id, fun _ => trivial⟩
  | setLightRange e lo hi => exact fun _ _ _ _ _ => trivial
  | _ => exact hx

/-- A node with the bindings of a coupling is tuned if the memory of the lightness is in order. -/
theorem Tuned.tighten (h : n.Tuned c.loose strict)
    (hkeeps : ∀ i, n.get? c.lamp .lightness = some i → c.keeps i.light) : n.Tuned c strict where
  bindings := h.bindings
  depth := h.depth
  maxBindDepth := h.maxBindDepth
  typed := h.typed
  lamp := by
    obtain ⟨i, hi, -⟩ := h.lamp
    exact ⟨i, hi, hkeeps i hi⟩
  mate := h.mate
  ready := h.ready

theorem IsBoundBy.tuned (h : n.IsBoundBy c.couple)
    (hkeeps : ∀ i, n.get? c.lamp .lightness = some i → c.keeps i.light) (hfits : n.Fits c) :
    n.Tuned c False ∧ n.InStep c := by
  obtain ⟨n₀, before, after, hn, hadded, hcalls, rfl⟩ := h
  have hbefore (x : Call) (hx : .call x ∈ before) := hcalls x (List.mem_append_left _ hx)
  have hafter (x : Call) (hx : .call x ∈ after) := hcalls x (List.mem_append_right _ hx)
  have hs : (c.couple (n₀.run before)).1.Sound := { hn.sound.run before with }
  have hshape : ((c.couple (n₀.run before)).1.run after).shape = n₀.shape :=
    (run_precedes hs after).shape.trans (run_precedes hn.sound before).shape
  -- A run hosts what it started with, so both ends were there when the node was new.
  obtain ⟨hlamp, hmate⟩ := hfits.hosts
  rw [hosts_congr hshape] at hlamp hmate
  have hbindings : (c.couple (n₀.run before)).1.bindings.bindings = c.bindings := by
    refine bindings_couple ?_ hadded
    rw [bindings_run hn.sound hbefore, hn.bindings]
  have hfresh : n₀.Tuned c.loose False := hn.tuned hlamp hmate
  have htuned := hfresh.run hn.sound fun x hx => permits_loose (hbefore x hx)
  have hcoupled := (htuned.tuned.bound hbindings).run hs fun x hx => permits_loose (hafter x hx)
  refine ⟨hcoupled.tuned.tighten hkeeps, ?_, hfits⟩
  rw [bindings_run hs hafter, hbindings]

theorem IsBoundBy.fits (h : n.IsBoundBy c.couple)
    (hkeeps : ∀ i, n.get? c.lamp .lightness = some i → c.keeps i.light) (hd : n.IsDirect)
    (hfits : n.Fits c) (hops : ∀ x, .call x ∈ ops → c.Permits True x) :
    (n.run ops).Fits c ∧ (n.run ops).IsDirect := by
  obtain ⟨htuned, hin⟩ := h.tuned hkeeps hfits
  have hrun := (htuned.strictly hd).run h.sound hops
  exact ⟨(hrun.inStep trivial hin).fits, hrun.tuned.isDirect⟩

end Node

end MeshNode
