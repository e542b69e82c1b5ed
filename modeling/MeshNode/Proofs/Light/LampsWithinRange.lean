import MeshNode.Proofs.Transition.TimerAgreement
import MeshNode.Proofs.Bindings.LampsInStep
import MeshNode.Proofs.Light.KeepingToRange

/-! # Lamps within their ranges

While a lamp is busy its target is within its range, and at rest so is its lightness. It is outside
only on the way, once an interim value of a transition from or to zero, or a new range in the middle
of a transition, has led it there.
-/

namespace MeshNode.Node

variable {n n' n₁ : Node} {e e' : UInt8} {m m' : Model} {i : Instance} {v w : Value} {t d : Nat}
  {s : Source} {motion : Option Motion} {range : Lightness × Lightness} {safe strict : Prop}
  {new : List (Request × Option Motion)} {c : Course} {d? : Option Nat} {x : Call}

/-- No request that the lamp took up has more steps than a signed word can count. -/
def StepsFitWord (n : Node) (e : UInt8) : Prop :=
  ∀ q ∈ n.requestsFor e .lightness,
    q.1.transition / n.config.stepInterval.toNat < 2147483648

/-- The lamp keeps to its range. -/
structure Lit (n : Node) (e : UInt8) (range : Lightness × Lightness) (safe strict : Prop) :
    Prop where
  bounds : n.range? e .lightness = some range
  isRange : LightMemory.isRange range.1 range.2 = true
  course : ∀ c, (n.watch e .lightness).1 = some c → c.Keeps range safe (strict ∧ n.StepsFitWord e)

/-! ## What keeps a lamp as it is -/

theorem level_ne_lamp (e' e : UInt8) : (e', Model.level) ≠ (e, Model.lightness) := by simp

theorem StepsFitWord.of_suffix (h : n'.StepsFitWord e) (hc : n'.config = n.config)
    (hr : n.requestsFor e .lightness <:+ n'.requestsFor e .lightness) : n.StepsFitWord e := by
  intro q hq
  rw [← hc]
  exact h q (hr.subset hq)

theorem Lit.weaken {p : Prop} (h : n.Lit e range safe strict) (hp : p → strict) :
    n.Lit e range safe p :=
  ⟨h.bounds, h.isRange, fun c hc => (h.course c hc).weaken fun hq => ⟨hp hq.1, hq.2⟩⟩

theorem Lit.congr (h : n.Lit e range safe strict) (hc : n'.config = n.config)
    (hr : n'.requestsFor e .lightness = n.requestsFor e .lightness)
    (hw : (n'.watch e .lightness).1 = (n.watch e .lightness).1)
    (hl : n'.range? e .lightness = n.range? e .lightness) : n'.Lit e range safe strict where
  bounds := hl.trans h.bounds
  isRange := h.isRange
  course c hc' := (h.course c (hw.symm.trans hc')).weaken fun hq =>
    ⟨hq.1, hq.2.of_suffix hc (hr ▸ List.suffix_rfl)⟩

theorem Lit.tells (h : n.Lit e range safe strict) (ht : n.Tells n') :
    n'.Lit e range safe strict := by
  have hr := ht.requestsFor e .lightness
  obtain ⟨es, rfl, -⟩ := ht
  exact h.congr rfl hr rfl rfl

theorem Lit.modify_of_ne {f : Instance → Instance} (h : n.Lit e range safe strict)
    (hx : (e, Model.lightness) ≠ (e', m')) : (n.modify e' m' f).Lit e range safe strict := by
  refine h.congr rfl rfl ?_ ?_
  · exact congrArg Prod.fst (watch_modify_of_ne hx)
  · rw [range?, get?_modify_of_ne hx]
    rfl

theorem lit_mark (n : Node) (e' : UInt8) (m' : Model) :
    (n.mark e' m').Lit e range safe strict ↔ n.Lit e range safe strict := by
  have hl : (n.mark e' m').range? e .lightness = n.range? e .lightness := by
    refine range?_modify ?_ e .lightness
    exact fun _ => rfl
  by_cases hx : (e, Model.lightness) = (e', m')
  · obtain ⟨rfl, rfl⟩ := Prod.mk.injEq .. ▸ hx
    have hw := congrArg Prod.fst (watch_mark n e .lightness)
    constructor
    · intro h
      refine ⟨hl.symm.trans h.bounds, h.isRange, fun c hc => ?_⟩
      have hmarked := h.course { c with edgeResolved := true } (by rw [hw, hc]; rfl)
      exact hmarked.marked c.edgeResolved
    · intro h
      refine ⟨hl.trans h.bounds, h.isRange, fun c hc => ?_⟩
      obtain ⟨c', hc', rfl⟩ := Option.map_eq_some_iff.mp (hw.symm.trans hc)
      exact (h.course c' hc').marked true
  · constructor
    · exact fun h => h.congr rfl rfl (congrArg Prod.fst (watch_modify_of_ne hx).symm) hl.symm
    · exact fun h => h.modify_of_ne hx

theorem isAftermath_lit (m : Model) :
    IsAftermath m fun n n' => n.Lit e range safe strict → n'.Lit e range safe strict where
  refl _ := id
  tells h ht hn := (h hn).tells ht
  mark h e' hn := (lit_mark _ e' m).mpr (h ((lit_mark _ e' m).mp hn))

/-- What the course of the lamp is to keep to, when the lamp is the instance that is written to. -/
theorem Writes.lit (hw : n.Writes n₁ e' m' new c d?) (h : n.Lit e range safe strict)
    (hc : (e', m') = (e, .lightness) → c.Keeps range safe (strict ∧ n₁.StepsFitWord e)) :
    n₁.Lit e range safe strict := by
  have hl := hw.ranges e .lightness
  by_cases hx : (e, Model.lightness) = (e', m')
  · refine ⟨hl.trans h.bounds, h.isRange, fun c' hc' => ?_⟩
    obtain ⟨rfl, rfl⟩ := Prod.mk.injEq .. ▸ hx
    obtain rfl : c = c' := Option.some.inj (hw.onCourse.course.symm.trans hc')
    exact hc rfl
  · exact h.congr hw.config (hw.others _ _ hx).1 (congrArg Prod.fst (hw.others _ _ hx).2) hl

theorem Writes.stepsFitWord (hw : n.Writes n₁ e .lightness new c d?) (h : n₁.StepsFitWord e) :
    n.StepsFitWord e :=
  h.of_suffix hw.config (hw.requests ▸ List.suffix_append new _)

/-! ## Requests -/

theorem Lit.light (h : n.Lit e range safe strict) (hi : n.get? e .lightness = some i) :
    i.light.range = range := by
  have hr := h.bounds
  rw [range?, hi] at hr
  exact Option.some.inj hr

theorem Lit.keeps (h : n.Lit e range safe strict) (hi : n.get? e .lightness = some i) :
    i.course.Keeps range safe (strict ∧ n.StepsFitWord e) :=
  h.course i.course (congrArg Prod.fst (watch_of_get? hi))

theorem Lit.confine (h : n.Lit e range safe strict) (hi : n.get? e .lightness = some i)
    (v : Value) : (confine i v).IsWithin range := by
  have hl := h.light hi
  subst hl
  exact isWithin_confine h.isRange v

section Follow

variable {follow : Follow} (hfollow : ∀ n e' m' v, Lit n e range safe strict →
  (follow n e' m' v).Lit e range safe strict)
include hfollow

theorem Lit.start (h : n.Lit e range safe strict) (hv : v.model = m') :
    (n.start follow e' m' v t d s motion).Lit e range safe strict := by
  cases hi : n.get? e' m' with
  | none =>
    simp only [Node.start, hi]
    exact h
  | some i =>
    obtain ⟨n₁, hw, hR⟩ := start_writes (v := v) (t := t) (d := d) (s := s)
      (isAftermath_lit m') (fun _ n w => hfollow n e' m' w) motion hi
    refine hR (hw.lit h ?_)
    intro hx
    obtain ⟨rfl, rfl⟩ := Prod.mk.injEq .. ▸ hx
    have hfit (hq : strict ∧ n₁.StepsFitWord e') : strict ∧ n.StepsFitWord e' :=
      ⟨hq.1, hw.stepsFitWord hq.2⟩
    have himm : (admitted i ⟨e', .lightness, v, t, d, s⟩).value.isImmediate = false :=
      Value.not_isImmediate_of_model (.inr ((model_confine i v).trans hv))
    refine Course.keeps_enter himm (fun _ => h.confine hi v)
      (fun hq => (h.keeps hi).present (hfit hq)) fun hq a b ha hb hs => ?_
    -- The request is among those whose steps have to fit a word.
    have hsteps := hq.2 (admitted i ⟨e', .lightness, v, t, d, s⟩, motion)
      (hw.requests ▸ List.mem_cons_self)
    rw [hw.config] at hsteps
    simp only [admittedCourse] at ha hs ⊢
    split at hs
    · cases hs
    next hm =>
      rw [if_neg hm]
      exact Stepping.approaches_plan (congrArg Value.position? ha) (congrArg Value.position? hb)
        hsteps hs

theorem Lit.carryOut {r : Request} (h : n.Lit e range safe strict) :
    (n.carryOut follow r).Lit e range safe strict := by
  rw [Node.carryOut]
  split
  next hr => exact h.start hfollow (model_of_check hr rfl)
  next => exact h.tells (tells_emit n _)

end Follow

theorem closedUnderBindings_lit :
    ClosedUnderBindings fun n n' => n.Lit e range safe strict → n'.Lit e range safe strict where
  refl _ := id
  trans h h' := h' ∘ h
  note _ _ _ _ h := h.tells (tells_note (by simp))
  depth _ _ h := h.congr rfl rfl rfl rfl
  carryOut hfollow _ _ h := h.carryOut hfollow

theorem lit_follow (n : Node) (e' : UInt8) (m' : Model) (v : Value)
    (h : n.Lit e range safe strict) : (n.follow e' m' v).Lit e range safe strict :=
  closedUnderBindings_lit.follow n e' m' v h

/-! ## Progress -/

section Progress

variable (h : n.Lit e range safe strict)
include h

theorem Lit.settle (hw : (e', m') = (e, .lightness) →
      safe ∨ (strict ∧ n.StepsFitWord e) → w.IsWithin range) :
    (n.settle follow e' m' w s).Lit e range safe strict := by
  cases hi : n.get? e' m' with
  | none =>
    simp only [Node.settle, hi]
    exact h
  | some i =>
    obtain ⟨n₁, hwrites, hR⟩ := settle_writes (w := w) (s := s) (isAftermath_lit m')
      (fun _ _ n => lit_follow n e' m' w) hi
    refine hR (hwrites.lit h fun hx => ?_)
    obtain ⟨rfl, rfl⟩ := Prod.mk.injEq .. ▸ hx
    exact Course.keeps_finish _ fun hq => hw rfl (hq.imp_right fun hq =>
      ⟨hq.1, hwrites.stepsFitWord hq.2⟩)

theorem Lit.resume (hi : n.get? e' m' = some i) (hw : w.model = m')
    (hlamp : (e', m') = (e, .lightness) →
      i.target = w ∧ (0 < t ∨ 0 < d → 0 < i.delay ∨ 0 < i.remaining)) :
    (n.program follow e' m' w t d s).Lit e range safe strict := by
  obtain ⟨n₁, hwrites, hR⟩ := program_writes (w := w) (t := t) (d := d) (s := s)
    (isAftermath_lit m') (fun _ _ n => lit_follow n e' m' w) hi
  refine hR (hwrites.lit h fun hx => ?_)
  obtain ⟨rfl, hbusy⟩ := hlamp hx
  obtain ⟨rfl, rfl⟩ := Prod.mk.injEq .. ▸ hx
  have hk := (h.keeps hi).weaken
    fun hq : strict ∧ n₁.StepsFitWord e' => ⟨hq.1, hwrites.stepsFitWord hq.2⟩
  refine Course.keeps_enter (Value.not_isImmediate_of_model (.inr hw)) (fun hq => ?_) hk.present
    hk.approaches
  exact hk.isWithin_target (hq.imp_right fun hq => hbusy hq.symm)

theorem Lit.endDelay (hn : n.Typed) (hi : n.get? e' m' = some i) :
    (n.endDelay e' m' i).Lit e range safe strict := by
  obtain ⟨n₁, hwrites, hR⟩ := endDelay_writes (isAftermath_lit m')
    (fun _ n => lit_follow n e' m' _) hi
  refine hR (hwrites.lit h fun hx => ?_)
  obtain ⟨rfl, rfl⟩ := Prod.mk.injEq .. ▸ hx
  have hk := (h.keeps hi).weaken
    fun hq : strict ∧ n₁.StepsFitWord e' => ⟨hq.1, hwrites.stepsFitWord hq.2⟩
  have himm := Value.not_isImmediate_of_model (.inr (hn e' .lightness i hi).target)
  refine Course.keeps_enter himm (fun hq => ?_) hk.present hk.approaches
  exact hk.isWithin_target (hq.imp_right fun hq => .inr (hq.resolve_left (Nat.lt_irrefl 0)))

theorem Lit.moved (hi : n.get? e' .level = some i) (k : Motion) :
    (n.moved e' .level i k).Lit e range safe strict := by
  obtain ⟨n₁, hwrites, hR⟩ := visit_writes (v := i.present.shift k.step) (s := i.source)
    (isAftermath_lit .level) (fun _ n => lit_follow n e' .level _) hi
  exact hR (hwrites.lit h fun hx => absurd hx (level_ne_lamp e' e))

theorem Lit.stepped (hi : n.get? e' m' = some i) (hbusy : 0 < i.delay ∨ 0 < i.remaining)
    (hstep : (e', m') = (e, .lightness) → strict ∧ n.StepsFitWord e →
      (i.present.shift i.stepping.increment).IsWithin range) :
    (n.stepped e' m' i).Lit e range safe strict := by
  obtain ⟨n₁, hwrites, hR⟩ := stepped_writes (isAftermath_lit m')
    (fun _ n v => lit_follow n e' m' v) hi
  refine hR (hwrites.lit h fun hx => ?_)
  obtain ⟨rfl, rfl⟩ := Prod.mk.injEq .. ▸ hx
  have hfit (hq : strict ∧ n₁.StepsFitWord e') : strict ∧ n.StepsFitWord e' :=
    ⟨hq.1, hwrites.stepsFitWord hq.2⟩
  exact ((h.keeps hi).weaken hfit).stepped hbusy fun hq => hstep rfl (hfit hq)

/-- The bindings that follow an interim value of a calm node leave the instance on its way. -/
theorem Lit.stepOn (hn : n.Typed) (hcalm : n.IsCalm) (hi : n.get? e' m' = some i)
    (hbusy : 0 < i.delay ∨ 0 < i.remaining)
    (hstep : (e', m') = (e, .lightness) → strict ∧ n.StepsFitWord e →
      (i.present.shift i.stepping.increment).IsWithin range) :
    (n.stepOn e' m' i).Lit e range safe strict := by
  have hstepped := h.stepped hi hbusy hstep
  have ht := hn e' m' i hi
  rw [stepOn_eq]
  split
  · refine hstepped.settle fun hx _ => ?_
    obtain ⟨rfl, rfl⟩ := Prod.mk.injEq .. ▸ hx
    exact (h.keeps hi).target (.inr hbusy)
  next hleft =>
    obtain ⟨n₁, hwrites, hcalms⟩ := stepped_writes (isAftermath_calms m')
      (fun _ n v hn hc => calms_follow hn hc e' v) hi
    have hsame := (hcalms (hwrites.typed hn ht.course.stepped) (hwrites.isCalm hcalm)).watch e'
    obtain ⟨j, hj, hjc⟩ := hwrites.onCourse.exists_get?_of_watch hsame
    refine .tells (hstepped.resume hj ht.target fun _ => ?_) (tells_publish _ e' m')
    have hremaining : j.remaining = i.remaining := congrArg Course.remaining hjc
    exact ⟨congrArg Course.target hjc, fun _ => .inr (by omega)⟩

theorem Lit.onTransition (hn : n.Typed) (hcalm : n.IsCalm) (e' : UInt8) (m' : Model)
    (hstep : ∀ i mid, (e', m') = (e, .lightness) → n.get? e .lightness = some i →
      n.interim? e .lightness = some mid → strict ∧ n.StepsFitWord e →
        (i.present.shift i.stepping.increment).IsWithin range) :
    (n.onTransition e' m').Lit e range safe strict := by
  have honward := n.onward e' m'
  generalize n.onTransition e' m' = n' at honward ⊢
  cases honward with
  | absent | idle => exact h
  | begin hi _ => exact h.endDelay hn hi
  | arrive hi _ =>
    refine h.settle fun hx hq => ?_
    obtain ⟨rfl, rfl⟩ := Prod.mk.injEq .. ▸ hx
    exact (h.keeps hi).isWithin_target (.inl hq)
  | @move i k hi hm hmid =>
    obtain rfl : m' = .level := (hn e' m' i hi).motion (by rw [hm]; rfl)
    have he := evolves_moved hn hi k
    have hhosts : (n.moved e' .level i k).hosts e' .level = true :=
      (he.hosts e' .level).trans (hosts_iff.mpr ⟨i, hi⟩)
    obtain ⟨j, hj⟩ := hosts_iff.mp hhosts
    refine .tells ((h.moved hi k).resume hj (hn e' .level i hi).target fun hx => ?_)
      (tells_publish _ e' .level)
    exact absurd hx (level_ne_lamp e' e)
  | @step i hi hm ha hmid =>
    have hbusy : 0 < i.delay ∨ 0 < i.remaining := by
      by_contra hidle
      simp only [not_or, Nat.not_lt, Nat.le_zero] at hidle
      simp [interim?, hi, hidle] at hmid
    refine h.stepOn hn hcalm hi hbusy fun hx hq => ?_
    obtain ⟨rfl, rfl⟩ := Prod.mk.injEq .. ▸ hx
    exact hstep i _ rfl hi hmid hq

end Progress

/-! ## Calls -/

section Calls

variable (h : n.Lit e range safe strict)
include h

theorem Lit.works (hw : n.Works n') : n'.Lit e range safe strict := by
  induction hw with
  | tells ht => exact h.tells ht
  | books e' m' hc _ _ hl =>
    exact h.congr rfl rfl (congrArg Prod.fst (watch_modify_of_course hc ..)) (range?_modify hl ..)
  | start e' v t d s => exact h.start lit_follow rfl
  | follow n e' m' v => exact lit_follow n e' m' v h
  | listeners n _ => exact h.congr rfl rfl rfl rfl
  | trans _ _ ih ih' => exact ih' (ih h)

theorem Lit.moves (hm : n.Moves e' n') : n'.Lit e range safe strict := by
  cases hm with
  | stay => exact h
  | halt =>
    cases hi : n.get? e' .level with
    | none =>
      have hi' : (n.cancel (transitionTimer e' .level)).get? e' .level = none := hi
      simp only [halt, hi']
      exact h.congr rfl rfl rfl rfl
    | some i =>
      obtain ⟨n₁, hw, hR⟩ := halt_writes (isAftermath_lit .level) hi
      exact hR (hw.lit h fun hx => absurd hx (level_ne_lamp e' e))
  | start bound t d motion _ => exact h.start lit_follow rfl

theorem Lit.remember {g : Envelope} {k : UInt8} {ack : Bool} :
    (n.remember g m k ack).Lit e range safe strict := by
  refine h.congr rfl rfl (congrArg Prod.fst (watch_remember ..)) ?_
  refine range?_modify ?_ e .lightness
  exact fun _ => rfl

theorem Lit.receive (g : Envelope) (message : Message) :
    (n.receive g message).1.Lit e range safe strict := by
  have hr := reception n g message
  generalize n.receive g message = res at hr ⊢
  cases hr with
  | absent | dropped | duplicate => exact h
  | answered m hm ht => exact h.tells ht
  | @stored n' v hk hv ht hget htells =>
    refine .tells (h.modify_of_ne ?_) htells
    intro hx
    have hmodel : Model.lightness = v.model := congrArg Prod.snd hx
    rw [← hv, ← hmodel] at ht
    cases ht
  | @taken i k n₀ n₁ n' ack hi hk hr h₀ hlog h₁ hworks =>
    have hremembered : (n₀.remember g message.model k ack).Lit e range safe strict :=
      (h.works h₀).remember
    rcases h₁ with rfl | ⟨-, hm⟩
    · exact hremembered.works hworks
    · exact (hremembered.moves hm).works hworks

theorem Lit.reset (hsafe : ¬ safe) : n.reset.Lit e range safe strict where
  bounds := by
    rw [range?, get?_reset, Option.map_map]
    exact h.bounds
  isRange := h.isRange
  course c hc := by
    have hc : (n.reset.get? e .lightness).map Instance.course = some c := hc
    rw [get?_reset, Option.map_map] at hc
    obtain ⟨i, hi, rfl⟩ := Option.map_eq_some_iff.mp hc
    refine ⟨fun hq => absurd (hq.resolve_left hsafe) ?_, fun _ => rfl, (h.keeps hi).present,
      fun _ _ _ _ _ hs => ?_⟩
    · simp [Instance.course, Instance.reset]
    · cases hs

end Calls

/-! ## Leaving the range -/

/-- The step leads the lamp out of its range. -/
inductive Strays (e : UInt8) (n : Node) : Node → Prop where
  /-- An interim value of a transition from or to zero is outside of the range. -/
  | interim {horizon : Nat} {ts : Timers} {i : Instance} {mid : Node}
    (hp : n.timers.pop? horizon = some (transitionTimer e .lightness, ts))
    (hi : n.get? e .lightness = some i)
    (hmid : { n with timers := ts }.interim? e .lightness = some mid)
    (hzero : i.present = .lightness 0 ∨ i.target = .lightness 0)
    (hout : ¬ (i.present.shift i.stepping.increment).IsWithin i.light.range) :
    Strays e n ({ n with timers := ts }.onTimer (transitionTimer e .lightness))
  /-- A new range holds where the busy lamp is going, but not what it shows. -/
  | range {lo hi : Lightness} {i : Instance} (hget : n.get? e .lightness = some i)
    (hrange : LightMemory.isRange lo hi = true) (hbusy : i.phase ≠ .idle)
    (htarget : i.target.IsWithin (lo, hi)) (hpresent : ¬ i.present.IsWithin (lo, hi)) :
    Strays e n (n.handle (.setLightRange e lo hi))

theorem request_lightness (hi : n.get? e .lightness = some i) (l : Lightness) :
    n.request (.application e (.lightness l) 0 0) =
      (n.start follow e .lightness (.lightness l) 0 0 .application none, .success) := by
  simp only [request, carryOut, Request.application, Value.model, check_lightness hi]

theorem lit_request {r : Lightness × Lightness} (hi : n.get? e .lightness = some i)
    (hr : i.light.range = r) (hrange : LightMemory.isRange r.1 r.2 = true) (l : Lightness) :
    (n.request (.application e (.lightness l) 0 0)).1.Lit e r safe strict := by
  subst hr
  rw [request_lightness hi]
  obtain ⟨n₁, hw, hR⟩ := start_writes (v := .lightness l) (t := 0) (d := 0) (s := .application)
    (isAftermath_lit .lightness) (fun _ n w => lit_follow n e .lightness w) none hi
  refine hR ⟨(hw.ranges e .lightness).trans (by rw [range?, hi]; rfl), hrange, fun c hc => ?_⟩
  obtain rfl := Option.some.inj (hw.onCourse.course.symm.trans hc)
  exact Course.keeps_finish _ fun _ => isWithin_confine hrange (.lightness l)

theorem lightness_of_model (hv : v.model = .lightness) : ∃ l, v = .lightness l := by
  cases v with
  | lightness l => exact ⟨l, rfl⟩
  | _ => cases hv

theorem settled_eq (i : Instance) :
    i.settled = if 0 < i.delay ∨ 0 < i.remaining then i.target else i.present := by
  rw [Instance.settled, Instance.isIdle]
  by_cases hidle : i.phase = .idle
  · rw [if_pos (decide_eq_true hidle), if_neg (Instance.phase_eq_idle_iff.mp hidle)]
  · have hbusy := not_not.mp fun h => hidle (Instance.phase_eq_idle_iff.mpr h)
    rw [if_neg (by simpa using hidle), if_pos hbusy]

theorem settled_lightness (ht : i.Typed .lightness) : ∃ l, i.settled = .lightness l := by
  apply lightness_of_model
  rw [settled_eq]
  split
  · exact ht.target
  · exact ht.present

/-- Another range that holds the value to settle on is kept to, if it holds what is shown on the way
to it. -/
theorem Lit.retuned {light : LightMemory} (h : n.Lit e range safe strict)
    (hi : n.get? e .lightness = some i)
    (hrange : LightMemory.isRange light.rangeMin light.rangeMax = true)
    (hsettled : i.settled.IsWithin light.range) :
    (n.retuned e light).Lit e light.range safe
      (strict ∧ (i.phase ≠ .idle → i.present.IsWithin light.range)) where
  bounds := by
    rw [range?, Node.retuned, get?_modify_self, hi]
    rfl
  isRange := hrange
  course c hc := by
    rw [watch_retuned] at hc
    obtain rfl := Option.some.inj ((congrArg Prod.fst (watch_of_get? hi)).symm.trans hc)
    refine (h.keeps hi).rerange (fun hidle => ?_) (fun hbusy => ?_) fun hq => ⟨⟨hq.1.1, hq.2⟩, ?_⟩
    · have hshown : i.settled = i.present := (settled_eq i).trans (if_neg hidle)
      rwa [hshown] at hsettled
    · have haimed : i.settled = i.target := (settled_eq i).trans (if_pos hbusy)
      rwa [haimed] at hsettled
    · exact fun hbusy => hq.1.2 fun hidle => Instance.phase_eq_idle_iff.mp hidle hbusy

theorem Lit.setLightRange (h : n.Lit e range safe strict) (hn : n.Typed) (lo hi : Lightness) :
    ∃ range', (n.handle (.setLightRange e lo hi)).Lit e range' safe
      (strict ∧ ¬ n.Strays e (n.handle (.setLightRange e lo hi))) := by
  by_cases hrange : LightMemory.isRange lo hi = true
  · obtain ⟨i, hget, -⟩ := Option.map_eq_some_iff.mp h.bounds
    have hstrays (hs : i.settled.IsWithin (lo, hi))
        (hq : ¬ n.Strays e (n.handle (.setLightRange e lo hi))) (hbusy : i.phase ≠ .idle) :
        i.present.IsWithin (lo, hi) := by
      rw [settled_eq, if_pos (not_not.mp (hbusy ∘ Instance.phase_eq_idle_iff.mpr))] at hs
      by_contra hp
      exact hq (.range hget hrange hbusy hs hp)
    refine ⟨(lo, hi), ?_⟩
    generalize n.Strays e (n.handle (.setLightRange e lo hi)) = strays at hstrays ⊢
    obtain ⟨current, hcurrent⟩ := settled_lightness (hn e .lightness i hget)
    simp only [handle, Node.setLightRange, hget, if_pos hrange, hcurrent]
    split
    next hclamp =>
      have hwithin := LightMemory.clamp_eq_self_iff.mp hclamp
      rw [← hcurrent] at hwithin
      have hlit := (h.retuned hget hrange hwithin).weaken fun hq : strict ∧ ¬ strays =>
        ⟨hq.1, hstrays hwithin hq.2⟩
      exact (hlit.tells (tells_save _ e .lightness)).tells (tells_emit _ _)
    next =>
      have hset : (n.modify e .lightness fun j =>
          { j with light := { i.light with rangeMin := lo, rangeMax := hi } }).get? e .lightness =
            some { i with light := { i.light with rangeMin := lo, rangeMax := hi } } := by
        rw [get?_modify_self, hget]
        rfl
      exact lit_request hset rfl hrange _
  · refine ⟨range, (h.tells ?_).weaken And.left⟩
    simp only [handle, Node.setLightRange]
    split
    · exact tells_emit n _
    · rw [if_neg hrange]
      exact tells_emit n _

theorem Lit.handle (h : n.Lit e range safe strict) (hrestore : ∀ s, x ≠ .restore s)
    (hsafe : safe → x ≠ .reset) (hr : ∀ lo hi, x ≠ .setLightRange e lo hi) :
    (n.handle x).Lit e range safe strict := by
  rcases handle_cases n x with ha | ⟨table, heq, -⟩ | rfl | ⟨s, rfl⟩ | ⟨g, message, rfl⟩
  · cases ha with
    | works hw => exact h.works hw
    | @retunes e' lo hi light hw =>
      have hx : (e, Model.lightness) ≠ (e', .lightness) := by
        intro hx
        obtain rfl := congrArg Prod.fst hx
        exact hr lo hi rfl
      exact (h.modify_of_ne hx).works hw
  · rw [heq]
    exact h.congr rfl rfl rfl rfl
  · exact h.reset fun hs => hsafe hs rfl
  · exact absurd rfl (hrestore s)
  · exact h.receive g message

/-! ## Steps -/

/-- An interim value outside of the range is one of a transition from or to zero. -/
theorem Lit.zero_of_interim {mid : Node} (h : n.Lit e range safe strict) (hn : n.Typed)
    (hq : strict ∧ n.StepsFitWord e) (hi : n.get? e .lightness = some i)
    (hmid : n.interim? e .lightness = some mid)
    (hout : ¬ (i.present.shift i.stepping.increment).IsWithin range) :
    i.present = .lightness 0 ∨ i.target = .lightness 0 := by
  have ht := hn e .lightness i hi
  have hk := h.keeps hi
  have hm : i.motion = none := by
    cases hm : i.motion with
    | none => rfl
    | some k => exact absurd (ht.motion (by rw [hm]; rfl)) (by decide)
  have hsteps : 0 < i.stepping.steps := by
    by_contra hs
    simp [interim?, hi, hm, Stepping.isActive, hs] at hmid
  obtain ⟨a, ha⟩ := lightness_of_model ht.present
  obtain ⟨b, hb⟩ := lightness_of_model ht.target
  have hpresent := hk.present hq
  have htarget := hk.isWithin_target (.inl (.inr hq))
  have happroaches := hk.approaches hq a b ha hb hsteps
  by_contra hne
  rw [not_or, ha, hb] at hne
  change i.present.IsWithin range at hpresent
  change i.target.IsWithin range at htarget
  rw [ha] at hpresent hout
  rw [hb] at htarget
  exact hout (Value.isWithin_shift happroaches hsteps hpresent htarget
    (fun h0 => hne.1 (congrArg Value.lightness h0)) fun h0 => hne.2 (congrArg Value.lightness h0))

/-- What the calls of a run must be for a lamp to keep to its range. -/
structure HelpersNoRestore (safe : Prop) (n : Node) (x : Call) : Prop where
  helpersOnly : n.HelpersOnly x
  ne_restore : ∀ s, x ≠ .restore s
  ne_reset : safe → x ≠ .reset

theorem Lit.step (h : n.Lit e range safe strict) (hsteady : n.Steady)
    (hs : Step (HelpersNoRestore safe) n n') :
    ∃ range', n'.Lit e range' safe (strict ∧ ¬ n.Strays e n') := by
  cases hs with
  | call x hx =>
    by_cases hr : ∃ lo hi, x = .setLightRange e lo hi
    · obtain ⟨lo, hi, rfl⟩ := hr
      exact h.setLightRange hsteady.typed lo hi
    · refine ⟨range, (h.handle hx.ne_restore hx.ne_reset fun lo hi hxr => ?_).weaken And.left⟩
      exact hr ⟨lo, hi, hxr⟩
  | @expiry horizon timer ts hp =>
    have hpopped : Lit { n with timers := ts } e range safe strict := h.congr rfl rfl rfl rfl
    obtain ⟨e', m', rfl | rfl⟩ := timer_cases timer
    -- A firing leads the lamp out only by an interim value, which is one of a transition from or to
    -- zero.
    · refine ⟨range, Lit.onTransition (hpopped.weaken And.left) hsteady.typed hsteady.isCalm e' m'
        fun i mid hx hi hmid hq => ?_⟩
      obtain ⟨rfl, rfl⟩ := Prod.mk.injEq .. ▸ hx
      by_contra hout
      have hzero := hpopped.zero_of_interim hsteady.typed ⟨hq.1.1, hq.2⟩ hi hmid hout
      rw [← hpopped.light hi] at hout
      exact hq.1.2 (.interim hp hi hmid hzero hout)
    · refine ⟨range, Lit.weaken (hpopped.congr rfl rfl ?_ ?_) And.left⟩
      · exact congrArg Prod.fst (watch_expired ..)
      · refine range?_modify ?_ e .lightness
        exact fun _ => rfl
  | @passage horizon _ =>
    have hlater : Lit { n with timers := n.timers.settle horizon } e range safe strict :=
      h.congr rfl rfl rfl rfl
    exact ⟨range, hlater.weaken And.left⟩

/-- At some step from the first node to the second the lamp was led out of its range. -/
def Strayed (P : Node → Call → Prop) (e : UInt8) (n n' : Node) : Prop :=
  ∃ n₁ n₂, Steps P n n₁ ∧ n₁.Strays e n₂ ∧ Steps P n₂ n'

theorem Lit.steps (h : n.Lit e range safe True) (hsound : n.Sound) (hsteady : n.Steady)
    (hs : Steps (HelpersNoRestore safe) n n') :
    ∃ range', n'.Lit e range' safe (¬ Strayed (HelpersNoRestore safe) e n n') := by
  induction hs with
  | refl => exact ⟨range, h.weaken fun _ => trivial⟩
  | @tail n₁ n₂ hs hstep ih =>
    have hhelps : Steps HelpersOnly n n₁ := steps_mono (fun _ _ hx => hx.helpersOnly) hs
    obtain ⟨r, hr⟩ := ih
    obtain ⟨r', hr'⟩ := hr.step (hsteady.steps hsound hhelps) hstep
    refine ⟨r', hr'.weaken fun hq => ⟨?_, fun hst => hq ⟨n₁, n₂, hs, hst, .refl⟩⟩⟩
    rintro ⟨m₁, m₂, h₁, hst, h₂⟩
    exact hq ⟨m₁, m₂, h₁, hst, h₂.tail hstep⟩

theorem holdsOfNew_range : HoldsOfNew fun _ i => i.light.range = (1, 65535) where
  new _ _ _ := rfl
  value _ _ h := h
  saved _ _ h := h

theorem IsBuilt.lit (hn : n.IsBuilt) (hi : n.get? e .lightness = some i) :
    n.Lit e (1, 65535) safe True where
  bounds := by
    rw [range?, hi, Option.map_some, hn.holds holdsOfNew_range hi]
  isRange := by decide
  course c hc := by
    obtain rfl := Option.some.inj ((congrArg Prod.fst (watch_of_get? hi)).symm.trans hc)
    obtain ⟨-, v, hv, hcourse⟩ := hn.isFresh hi
    obtain ⟨l, rfl⟩ := lightness_of_model hv
    rw [hcourse]
    refine Course.keeps_finish (.fresh (.lightness l)) fun _ => ?_
    by_cases hl : l = 0
    · exact .inl hl
    · have hlt := l.toNat_lt
      have hpos : l.toNat ≠ 0 := fun h0 => hl (UInt16.toNat_inj.mp h0)
      refine .inr ⟨?_, ?_⟩
      all_goals
        simp only [UInt16.le_iff_toNat_le, UInt16.reduceToNat]
        omega

theorem Lit.rest (h : n.Lit e range safe strict) (hsteady : n.Steady)
    (hi : n.get? e .lightness = some i) (hidle : i.phase = .idle)
    (hp : i.present.IsWithin range) : n.Lit e range safe True where
  bounds := h.bounds
  isRange := h.isRange
  course c hc := by
    obtain rfl := Option.some.inj ((congrArg Prod.fst (watch_of_get? hi)).symm.trans hc)
    have hk := h.keeps hi
    refine ⟨hk.target, hk.idle, fun _ => hp, fun _ a b _ _ hs => ?_⟩
    have hnone := ((hsteady.consistent e .lightness _ _ (watch_of_get? hi)).idle
      (Instance.phase_eq_idle_iff.mp hidle)).2.1
    rw [hnone] at hs
    cases hs

theorem admits_helpersNoRestore {ops part : List Operation}
    (hbind : ∀ link rule, .call (.bind link rule) ∉ ops)
    (hrestore : ∀ s, .call (.restore s) ∉ ops) (hreset : safe → .call .reset ∉ ops)
    (hpart : part ⊆ ops) (n : Node) : n.Admits (HelpersNoRestore safe) part := by
  refine admits_of_forall (fun n x hx => ⟨?_, ?_, ?_⟩) n
  · rintro link rule rfl
    exact hbind link rule (hpart hx)
  · rintro s rfl
    exact hrestore s (hpart hx)
  · rintro hs rfl
    exact hreset hs (hpart hx)

theorem IsBuilt.lit_steps (hn : n.IsBuilt) (hsteps : Steps (HelpersNoRestore safe) n n')
    (hi : n'.get? e .lightness = some i) :
    n'.Lit e i.light.range safe (¬ Strayed (HelpersNoRestore safe) e n n') ∧ n'.Steady := by
  have hhosts : n.hosts e .lightness = true :=
    (hosts_congr (steps_precedes hn.sound hsteps).shape e .lightness).symm.trans
      (hosts_iff.mpr ⟨i, hi⟩)
  obtain ⟨i₀, hi₀⟩ := hosts_iff.mp hhosts
  obtain ⟨range, hlit⟩ := (hn.lit hi₀).steps hn.sound hn.steady hsteps
  obtain rfl := hlit.light hi
  exact ⟨hlit, hn.steady.steps hn.sound (steps_mono (fun _ _ hx => hx.helpersOnly) hsteps)⟩

theorem IsBuilt.lit_run {ops : List Operation} (hn : n.IsBuilt)
    (hops : n.Admits (HelpersNoRestore safe) ops)
    (hi : (n.run ops).get? e .lightness = some i) :
    (n.run ops).Lit e i.light.range safe (¬ Strayed (HelpersNoRestore safe) e n (n.run ops)) ∧
      (n.run ops).Steady :=
  hn.lit_steps (run_steps hops) hi

/-- In any run in which only helpers register bindings and nothing is restored, a lamp that is busy
is going to a lightness within its range, and one that has settled is within it. On the way it is
within it as well, unless a transition from or to zero or a new range has led it out of it since it
was at rest, or a transition has more steps than a signed word can count. -/
theorem lit_within_range {ops : List Operation} (hn : n.IsBuilt)
    (hbind : ∀ link rule, .call (.bind link rule) ∉ ops)
    (hrestore : ∀ s, .call (.restore s) ∉ ops) (hi : (n.run ops).get? e .lightness = some i) :
    (i.phase ≠ .idle → i.target.IsWithin i.light.range) ∧
      (.call .reset ∉ ops → i.phase = .idle → i.present.IsWithin i.light.range) ∧
      ∀ pre rest j, ops = pre ++ rest → (n.run pre).get? e .lightness = some j →
        j.phase = .idle → j.present.IsWithin j.light.range →
          i.present.IsWithin i.light.range ∨
            Strayed (HelpersNoRestore False) e (n.run pre) (n.run ops) ∨
            ∃ q ∈ (n.run ops).requestsFor e .lightness,
              2147483648 ≤ q.1.transition / n.config.stepInterval.toNat := by
  obtain ⟨hlit, -⟩ :=
    hn.lit_run (admits_helpersNoRestore hbind hrestore id (List.Subset.refl ops) n) hi
  have hk := hlit.keeps hi
  refine ⟨fun hbusy => hk.target (.inr ?_), fun hreset hidle => ?_, ?_⟩
  · exact not_not.mp (hbusy ∘ Instance.phase_eq_idle_iff.mpr)
  · have hsame : i.present = i.target := hk.idle (Instance.phase_eq_idle_iff.mp hidle)
    rw [hsame]
    exact hk.target (.inl hreset)
  · rintro pre rest j rfl hj hidle hp
    have hconfig := (run_precedes hn.sound (pre ++ rest)).config
    rw [run_append] at hi hconfig ⊢
    by_contra hnone
    simp only [not_or, not_exists, not_and, Nat.not_le] at hnone
    obtain ⟨hout, hstrayed, hfit⟩ := hnone
    have hadmits : n.Admits (HelpersNoRestore False) pre :=
      admits_helpersNoRestore hbind hrestore False.elim (List.subset_append_left pre rest) n
    -- From a rest within the range the lamp keeps to it strictly, until a step leads it out.
    obtain ⟨hbefore, hsteady⟩ := hn.lit_run hadmits hj
    have hafter := run_steps
      (admits_helpersNoRestore hbind hrestore False.elim
        (List.subset_append_right pre rest) (n.run pre))
    obtain ⟨range, hlit⟩ :=
      (hbefore.rest hsteady hj hidle hp).steps (hn.sound.run pre) hsteady hafter
    obtain rfl := hlit.light hi
    refine hout ((hlit.keeps hi).present ⟨hstrayed, fun q hq => ?_⟩)
    rw [hconfig]
    exact hfit q hq

/-- A lamp fades between two lightness values of its range. -/
theorem lit_within_range_lamp :
    let ops : List Operation :=
      [.call (.bindLightnessToLevel 0 0), .call (.setLightRange 0 10000 50000),
        .call (.request (.application 0 (.lightness 20000) 0 0)),
        .call (.request (.application 0 (.lightness 60000) 3000 4)), .advance 1200]
    ∃ i, (lamp.run ops).get? 0 .lightness = some i ∧ i.phase = .transitioning ∧
      i.light.range = (10000, 50000) ∧ i.present = .lightness 30000 ∧
      i.target.IsWithin i.light.range := by
  intro ops
  have hlamp : ((lamp.run ops).get? 0 .lightness).map
      (fun i => (i.phase, i.light.range, i.present)) =
        some (.transitioning, (10000, 50000), .lightness 30000) := by decide +kernel
  obtain ⟨i, hi, hparts⟩ := Option.map_eq_some_iff.mp hlamp
  obtain ⟨hphase, hrange, hpresent⟩ := (by simpa using hparts :
    i.phase = .transitioning ∧ i.light.range = (10000, 50000) ∧ i.present = .lightness 30000)
  have hwithin := lit_within_range isBuilt_lamp (by simp [ops]) (by simp [ops]) hi
  exact ⟨i, hi, hphase, hrange, hpresent, hwithin.1 (by simp [hphase])⟩

/-- A lamp that fades in from zero shows a lightness below its range on the way. -/
theorem astray_lamp :
    ((lamp.run [.call (.setLightRange 0 10000 50000),
        .call (.request (.application 0 (.lightness 20000) 4000 0)), .advance 1000]).get? 0
          .lightness).map (fun i => (i.light.range, i.present)) =
        some ((10000, 50000), .lightness 5000) ∧
      ¬ (Value.lightness 5000).IsWithin (10000, 50000) := by
  refine ⟨by decide +kernel, ?_⟩
  rintro (hzero | ⟨hlo, -⟩)
  · exact absurd hzero (by decide)
  · exact absurd hlo (by decide)

end MeshNode.Node
