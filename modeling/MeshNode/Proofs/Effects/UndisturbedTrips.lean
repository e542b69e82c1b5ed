import MeshNode.Proofs.Effects.CallDeeds

/-! # Undisturbed instances

An instance that is left to itself does what belongs to the trip that it is on, leg by leg, until it
arrives. Whatever goes on around it meanwhile, its deeds are those of its own timer.
-/

namespace MeshNode

/-- The call has the instance do something of itself, or changes who takes notice of it. -/
def Call.Stirs (e : UInt8) (m : Model) : Call → Prop
  | .publish e' m' | .publishPeriodically e' m' | .keepSaved e' m' => (e', m') = (e, m)
  | .storeScene e' _ => e' = e
  | .setLightDefault e' _ | .setLightRange e' _ _ => (e', Model.lightness) = (e, m)
  | .listen m' _ => m' = m
  | x => ∃ b ∈ x.registrations, b.link.source = e ∧ m.boundState? = some b.link.sourceState

namespace Node

variable {n n' n₀ n₁ : Node} {e e' : UInt8} {m m' : Model} {i : Instance} {p : Trip}
  {leg : Trip.Leg}
  {r : Request} {rest : List (Request × Option Motion)} {x : Call} {link : Link} {rule : Rule}

/-! ## Who takes notice -/

theorem matching_register {t : BindingTable Rule} {state : BoundState}
    (h : ¬ (link.source = e ∧ link.sourceState = state)) :
    (t.register link rule).1.matching e state = t.matching e state := by
  unfold BindingTable.register
  split
  · rfl
  · split
    · rfl
    · simpa [BindingTable.matching] using h

theorem reacts_bind (h : ¬ (link.source = e ∧ m.boundState? = some link.sourceState)) (n : Node) :
    n.Reacts (n.bind link rule).1 e m := by
  have hlinks : (n.bind link rule).1.linksOf e m = n.linksOf e m := by
    cases hstate : m.boundState? with
    | none => rw [linksOf, linksOf, hstate]
    | some state =>
      rw [linksOf_of_state hstate, linksOf_of_state hstate]
      refine congrArg (List.map Binding.link) (matching_register fun hx => h ⟨hx.1, ?_⟩)
      rw [hstate, hx.2]
  refine .of_doesNothing (.of_watch rfl rfl List.suffix_rfl rfl rfl) ⟨?_, rfl⟩
  rw [audience, hlinks]
  rfl

theorem reacts_register (x : Call)
    (h : ∀ b ∈ x.registrations, ¬ (b.link.source = e ∧ m.boundState? = some b.link.sourceState))
    (n : Node) :
    n.Reacts (x.registrations.foldl (fun n b => (n.bind b.link b.rule).1) n) e m := by
  generalize x.registrations = bs at h ⊢
  induction bs generalizing n with
  | nil => exact .refl n e m
  | cons b bs ih =>
    obtain ⟨hb, hbs⟩ := List.forall_mem_cons.mp h
    exact (reacts_bind hb n).trans (ih _ hbs)

theorem reacts_listen (hm : m' ≠ m) (n : Node) (name : String) :
    n.Reacts (n.listen m' name) e m := by
  have hheard : (n.listeners.register m' name).isRegistered m = n.listeners.isRegistered m := by
    rw [Listeners.isRegistered, Listeners.register, PerModel.get_set, if_neg hm.symm]
    rfl
  refine .of_doesNothing (.of_watch rfl rfl List.suffix_rfl rfl rfl) ⟨?_, rfl⟩
  rw [audience, listen]
  exact congrArg (Audience.mk _ _ _) hheard

/-! ## Calls -/

theorem reacts_query (n : Node) (e' : UInt8) (m' : Model) : n.Reacts (n.query e' m').1 e m := by
  refine .of_doesNothing ((KeepsToRequests.refl n).tells (tells_emit n _) e m) ?_
  simp only [query, emit]
  split
  · exact ⟨rfl, chapters_note_of_none rfl rfl⟩
  · exact .refl n e m

theorem reacts_publish (hx : (e', m') ≠ (e, m)) (n : Node) : n.Reacts (n.publish e' m') e m :=
  reacts_of_tells (tells_publish n e' m') (doneFor_publish hx n)

theorem reacts_publishPeriodically (hx : (e', m') ≠ (e, m)) (n : Node) :
    n.Reacts (n.publishPeriodically e' m').1 e m := by
  rw [publishPeriodically_fst]
  exact reacts_publish hx n

theorem reacts_storeScene (hx : e' ≠ e) (n : Node) (slot : Nat) :
    n.Reacts (n.storeScene e' slot).1 e m := by
  have hne : ∀ m', (e', m') ≠ (e, m) := fun m' h => hx (Prod.mk.inj h).1
  exact .of_doesNothing ((works_storeScene n e' slot).keepsToRequests e m)
    (doesNothing_of_doneFor (doneFor_storeScene hne n slot))

theorem reacts_recallScene (h : n.BetweenOperations) (e' : UInt8) (slot transition : Nat) :
    n.Reacts (n.recallScene e' slot transition).1 e m := by
  rcases recallScene_cases n e' slot transition with ⟨heq, -⟩ | ⟨requests, -, heq⟩
  · rw [heq]
    exact .refl n e m
  · rw [heq]
    exact reacts_foldl h

theorem reacts_powerUp (h : n.BetweenOperations) (hm : m.isTransitional = true) :
    n.Reacts n.powerUp.1 e m := by
  refine reacts_of_doneFor h (doneFor_foldl (fun n' y hy => .follow ?_ _) n)
    ((works_powerUp n).keepsToRequests e m)
  -- Only servers of the behaviour at power-up are followed, and these have no transitions.
  have hmodel : y.2.1 = .powerOnOff := of_decide_eq_true (List.mem_filter.mp hy).2
  rintro hx
  rw [← (Prod.mk.inj hx).2, hmodel] at hm
  cases hm

theorem reacts_setLightDefault (hx : (e', Model.lightness) ≠ (e, m)) (n : Node) (l : Lightness) :
    n.Reacts (n.setLightDefault e' l).1 e m :=
  .of_doesNothing ((works_setLightDefault n e' l).keepsToRequests e m)
    (doesNothing_of_doneFor (doneFor_setLightDefault hx n l))

theorem reacts_restore {s : Snapshot} (hs : Spares e m n (.restore s)) :
    n.Reacts (n.handle (.restore s)) e m := by
  rcases restore_cases n s with ⟨-, heq⟩ | ⟨-, -, hok, heq⟩
  · rw [heq]
    exact .refl n e m
  · have hx : (s.image.element, s.image.model) ≠ (e, m) := by
      rintro hx
      exact hs ⟨(Prod.mk.inj hx).1, (Prod.mk.inj hx).2, hok⟩
    rw [heq]
    exact .of_doesNothing (.of_watch rfl rfl List.suffix_rfl rfl (watch_loaded hx.symm))
      ⟨audience_modify_of_ne (n := Node.cancel _ _) hx, rfl⟩

theorem reacts_spared_receive {c : Envelope} {message : Message} (h : n.BetweenOperations)
    (hm : m.isTransitional = true) (hs : Spares e m n (.receive c message)) :
    n.Reacts (n.receive c message).1 e m := by
  by_cases hacc : (n.receive c message).2 = .accepted
  · refine reacts_receive h hm ?_
    rintro bytes ack rfl hx
    exact hs ⟨(Prod.mk.inj hx).1, (Prod.mk.inj hx).2, nofun, hacc⟩
  · rw [receive_eq_self hacc]
    exact .refl n e m

/-- A call that leaves an instance to itself and asks nothing of its kind has it do nothing. -/
theorem reacts_handle (h : n.BetweenOperations) (hm : m.isTransitional = true) (hs : Spares e m n x)
    (hq : ¬ x.Stirs e m) : n.Reacts (n.handle x) e m := by
  cases x with
  | receive c message => exact reacts_spared_receive h hm hs
  | request r => exact reacts_carryOut h r
  | query e' m' => exact reacts_query n e' m'
  | publish e' m' => exact reacts_publish hq n
  | publishPeriodically e' m' => exact reacts_publishPeriodically hq n
  | sendStatus e' m' dst appKey unicast => exact reacts_sendStatus n e' m' dst appKey unicast
  | storeScene e' slot => exact reacts_storeScene hq n slot
  | recallScene e' slot transition => exact reacts_recallScene h e' slot transition
  | powerUp => exact reacts_powerUp h hm
  | setLightDefault e' l => exact reacts_setLightDefault hq n l
  | setLightRange e' lo hi =>
    exact reacts_of_doneFor h (doneFor_setLightRange hq n lo hi) (keepsToRequestsAt_handle hs)
  | reset => exact absurd trivial hs
  | restore s => exact reacts_restore hs
  | listen m' name => exact reacts_listen hq n name
  | keepSaved e' m' => exact reacts_modify_of_ne hq n
  | bind link rule => exact reacts_register (.bind link rule) (fun b hb hx => hq ⟨b, hb, hx⟩) n
  | bindLightnessToLevel lightness level =>
    exact reacts_register (.bindLightnessToLevel lightness level) (fun b hb hx => hq ⟨b, hb, hx⟩) n
  | bindLightnessToOnOff lightness onOff =>
    exact reacts_register (.bindLightnessToOnOff lightness onOff) (fun b hb hx => hq ⟨b, hb, hx⟩) n
  | bindOnOffToOnPowerUp power onOff =>
    exact reacts_register (.bindOnOffToOnPowerUp power onOff) (fun b hb hx => hq ⟨b, hb, hx⟩) n
  | bindLightnessToOnPowerUp power lightness =>
    exact reacts_register (.bindLightnessToOnPowerUp power lightness)
      (fun b hb hx => hq ⟨b, hb, hx⟩) n

/-! ## Taking up a request -/

theorem requestsFor_storeScene (n : Node) (e' : UInt8) (slot : Nat) :
    (n.storeScene e' slot).1.requestsFor e m = n.requestsFor e m := by
  rcases storeScene_cases n e' slot with ⟨heq, -⟩ | ⟨models, heq⟩
  · rw [heq]
  · rw [heq]
    refine List.foldlRecOn (motive := fun n' : Node => n'.requestsFor e m = n.requestsFor e m)
      _ _ ?_ fun n' h m' _ => ((tells_save n' e' m').requestsFor e m).trans h
    exact List.foldlRecOn (motive := fun n' : Node => n'.requestsFor e m = n.requestsFor e m)
      _ _ rfl fun n' h m' _ => h

theorem reacts_setLightRange (h : n.BetweenOperations) (e' : UInt8) (lo hi : Lightness) :
    n.Reacts (n.setLightRange e' lo hi).1 e m ∨
      (n.setLightRange e' lo hi).1.requestsFor e m = n.requestsFor e m := by
  have hretuned (light : LightMemory) : n.Reacts (n.retuned e' light) e m := by
    refine reacts_modify ?_ ?_ n e' .lightness
    · exact fun _ => rfl
    · exact fun _ => rfl
  have hbetween (light : LightMemory) : (n.retuned e' light).BetweenOperations :=
    h.evolves (evolves_retuned n e' light) rfl
  have htold (light : LightMemory) : (((n.retuned e' light).save e' .lightness).reportLightSetting
      e' .success).1.requestsFor e m = n.requestsFor e m :=
    ((tells_save (n.retuned e' light) _ _).trans (tells_emit _ _)).requestsFor e m
  rcases setLightRange_cases n e' lo hi with
    ⟨status, -, heq⟩ | ⟨-, light, -, -, -, heq | ⟨l, heq⟩⟩
  · rw [heq]
    exact .inr ((tells_emit n _).requestsFor e m)
  · rw [heq]
    exact .inr (htold light)
  · rw [heq]
    exact .inl ((hretuned light).trans (reacts_carryOut (hbetween light) _))

theorem requestsFor_setLightDefault (n : Node) (e' : UInt8) (l : Lightness) :
    (n.setLightDefault e' l).1.requestsFor e m = n.requestsFor e m := by
  unfold setLightDefault
  split
  · exact ((tells_save (Node.modify _ _ _ _) _ _).trans (tells_emit _ _)).requestsFor e m
  · exact (tells_emit n _).requestsFor e m

theorem reacts_of_stirs (h : n.BetweenOperations) (hx : x.Stirs e m) (hs : Spares e m n x) :
    n.Reacts (n.handle x) e m ∨ (n.handle x).requestsFor e m = n.requestsFor e m := by
  cases x with
  | receive | request | query | sendStatus | recallScene | powerUp | reset | restore =>
    obtain ⟨b, hb, -⟩ := hx
    cases hb
  | publish e' m' => exact .inr ((tells_publish n e' m').requestsFor e m)
  | publishPeriodically e' m' =>
    rw [handle, publishPeriodically_fst]
    exact .inr ((tells_publish n e' m').requestsFor e m)
  | storeScene e' slot => exact .inr (requestsFor_storeScene n e' slot)
  | setLightDefault e' l => exact .inr (requestsFor_setLightDefault n e' l)
  | setLightRange e' lo hi => exact reacts_setLightRange h e' lo hi
  | listen | keepSaved | bind | bindLightnessToLevel | bindLightnessToOnOff |
    bindOnOffToOnPowerUp | bindLightnessToOnPowerUp => exact .inr rfl

/-- In a call in which an instance takes up a request it sets out on the trip of the last one. -/
theorem reacts_of_request (h : n.BetweenOperations) (hm : m.isTransitional = true)
    (hr : (n.handle x).requestsFor e m = (r, none) :: rest)
    (hne : (n.handle x).requestsFor e m ≠ n.requestsFor e m) : n.Reacts (n.handle x) e m := by
  by_cases hs : Spares e m n x
  · by_cases hq : x.Stirs e m
    · exact (reacts_of_stirs h hq hs).resolve_right hne
    · exact reacts_handle h hm hs hq
  · cases x with
    | receive c message =>
      refine reacts_receive h hm ?_
      rintro bytes ack rfl hx
      obtain ⟨rfl, rfl⟩ := Prod.mk.inj hx
      rcases requestsFor_levelMove (c := c) h bytes ack with hsame | ⟨r', k, rest', hmove⟩
      · exact hne hsame
      · cases congrArg Prod.snd (List.cons.inj (hr.symm.trans hmove)).1
    | reset => exact absurd rfl hne
    | restore s =>
      rcases restore_cases n s with ⟨-, heq⟩ | ⟨-, -, -, heq⟩
      · exact absurd (by rw [heq]) hne
      · exact absurd (by rw [heq]; rfl) hne
    | _ => exact absurd id hs

/-! ## Nodes on the way -/

theorem depth_steps {P : Node → Call → Prop} (hs : Steps P n n') : n'.depth = n.depth := by
  induction hs with
  | refl => rfl
  | @tail n₁ n₂ _ hstep ih =>
    rw [← ih]
    cases hstep with
    | call x _ => exact (nests_handle n₁ x).depth
    | @expiry _ timer ts _ => exact (nests_onTimer { n₁ with timers := ts } timer).depth
    | passage => rfl

theorem IsBuilt.betweenOperations (hn : n.IsBuilt) (hs : Steps HelpersOnly n n') :
    n'.BetweenOperations := by
  have hsteady := hn.steady.steps hn.sound hs
  exact ⟨hsteady.typed, hsteady.isCalm, fun b hb => (hn.isHelper hs b hb).isTame,
    (depth_steps hs).trans hn.depth, (hn.sound.steps hs).maxBindDepth_pos⟩

theorem BetweenOperations.popped (h : n.BetweenOperations) (ts : Timers) :
    ({ n with timers := ts } : Node).BetweenOperations :=
  ⟨h.typed, h.isCalm, h.isTame, h.depth, h.maxBindDepth⟩

/-! ## Steps -/

/-- The call registers no bindings but those of the helpers, leaves the instance to itself and does
not have it do anything, and nobody else takes notice of it from then on. -/
def Leaves (e : UInt8) (m : Model) (n : Node) (x : Call) : Prop :=
  n.HelpersOnly x ∧ Spares e m n x ∧ ¬ x.Stirs e m

theorem conducts_of_step (h : n.BetweenOperations) (hm : m.isTransitional = true)
    (hs : Step HelpersOnly n n') (hr : n'.requestsFor e m = (r, none) :: rest)
    (hne : n'.requestsFor e m ≠ n.requestsFor e m) :
    n'.audience e m = n.audience e m ∧ ∃ origin leg, n'.Conducts e m (n'.trip r origin) leg := by
  have hreacts (n₁ : Node) (h : n₁.Reacts n' e m) (hne : n'.requestsFor e m ≠ n₁.requestsFor e m) :
      n'.audience e m = n₁.audience e m ∧
        ∃ origin leg, n'.Conducts e m (n'.trip r origin) leg := by
    obtain ⟨r', rest', origin, leg, hr', hconducts⟩ := h.conducts hne
    obtain rfl : r' = r := congrArg Prod.fst (List.cons.inj (hr'.symm.trans hr)).1
    exact ⟨h.audience, origin, leg, hconducts⟩
  cases hs with
  | call x hx => exact hreacts n (reacts_of_request h hm hr hne) hne
  | @expiry horizon timer ts hp =>
    obtain ⟨e', m', rfl | rfl⟩ := timer_cases timer
    · rw [onTimer_transition] at *
      have hpopped := h.popped ts
      by_cases hx : (e', m') = (e, m)
      · obtain ⟨rfl, rfl⟩ := Prod.mk.injEq .. ▸ hx
        exact absurd (proceeds_onTransition hpopped.typed hpopped.isCalm e' m').requests hne
      · have hother := reacts_of_doneFor hpopped (doneFor_onTransition hx _)
          (keepsToRequestsAt_onTransition (Ne.symm hx))
        exact hreacts { n with timers := ts } hother hne
    · exact absurd rfl hne
  | passage => exact absurd rfl hne

theorem Conducts.reacts (h : n.Conducts e m p leg) (hreacts : n.Reacts n' e m)
    (hr : n'.requestsFor e m = n.requestsFor e m) :
    n'.audience e m = n.audience e m ∧ ∃ leg', n'.Conducts e m p leg' :=
  ⟨hreacts.audience, leg, h.congr (hreacts.keepsToRequests.watch hr) hreacts.audience
    (hreacts.quiet hr)
    hreacts.keepsToRequests.now.ge hreacts.keepsToRequests.armings⟩

theorem Conducts.value (h : n.Conducts e m p leg) (hn : n.Typed) : p.request.value.model = m := by
  obtain ⟨edge, d?, -, hon, -⟩ := h.onCourse
  obtain ⟨i, hi, hic⟩ := hon.exists_get?
  have htarget : i.target = p.request.value := by
    rw [show i.target = i.course.target from rfl, hic]
    cases leg <;> rfl
  rw [← htarget]
  exact (hn e m i hi).target

theorem Conducts.due {horizon : Nat} {ts : Timers} (h : n.Conducts e m p leg) (hn : n.Sound)
    (hbetween : n.BetweenOperations) (hp : p.interval = n.config.stepInterval.toNat)
    (hpop : n.timers.pop? horizon = some (transitionTimer e m, ts)) :
    ∃ rest, ({ n with timers := ts } : Node).Due e m p leg rest := by
  obtain ⟨edge, d?, hedge, hon, harmed, hexact⟩ := h.onCourse
  obtain ⟨rest, hc⟩ := h.chapters
  obtain ⟨d, hd, -⟩ := Timers.deadline?_popped_le hpop
  have hlasts : (p.length? leg).isSome := by
    rw [← harmed, ← hon.armed]
    exact congrArg Option.isSome hd
  have hleg : leg ≠ .arrived := by
    rintro rfl
    cases hlasts
  have hw : ({ n with timers := ts } : Node).watch e m =
      (some (p.course (p.edge false leg) leg), none) :=
    hedge hleg ▸ Prod.ext hon.course (hn.ordered.deadline?_popped_self hpop)
  refine ⟨rest, h.has, h.origin, h.value hn.typed, hw, hlasts, fun hin => ?_, hp,
    hp ▸ hn.stepInterval_pos, hc, fun w => passes_follow (hbetween.popped ts) w _⟩
  have hin : n.timers.WithinClock := (popped_precedes hpop).withinClock hin
  rw [← hexact hin, ← hon.exact hin]
  exact hn.ordered.deadline?_popped hin hpop

/-- While an instance is left to itself it goes from leg to leg, and does what belongs to each. -/
theorem Conducts.step (h : n.Conducts e m p leg) (hn : n.Sound) (hbetween : n.BetweenOperations)
    (hm : m.isTransitional = true) (hp : p.interval = n.config.stepInterval.toNat)
    (hs : Step (Leaves e m) n n') (hr : n'.requestsFor e m = n.requestsFor e m) :
    n'.audience e m = n.audience e m ∧ ∃ leg', n'.Conducts e m p leg' := by
  cases hs with
  | call x hx => exact h.reacts (reacts_handle hbetween hm hx.2.1 hx.2.2) hr
  | @expiry horizon timer ts hpop =>
    have hnow : n.now ≤ ts.now := Timers.now_le_popped hpop
    have hother (hne : transitionTimer e m ≠ timer) :
        ({ n with timers := ts } : Node).Conducts e m p leg :=
      h.congr (watch_popped hpop hne) rfl rfl hnow (popped_precedes hpop).armings
    obtain ⟨e', m', rfl | rfl⟩ := timer_cases timer
    · rw [onTimer_transition] at hr ⊢
      by_cases hx : (e', m') = (e, m)
      · obtain ⟨rfl, rfl⟩ := Prod.mk.injEq .. ▸ hx
        obtain ⟨rest, hdue⟩ := h.due hn hbetween hp hpop
        exact hdue.onTransition
      · have hreacts := reacts_of_doneFor (hbetween.popped ts) (doneFor_onTransition hx _)
          (keepsToRequestsAt_onTransition (Ne.symm hx))
        exact (hother (transitionTimer_ne (Ne.symm hx))).reacts hreacts hr
    · have hreacts : ({ n with timers := ts } : Node).Reacts
          (({ n with timers := ts } : Node).expired e' m') e m := by
        refine reacts_modify ?_ ?_ _ e' m'
        · exact fun _ => rfl
        · exact fun _ => rfl
      exact (hother (transactionTimer_ne _ _ _ _).symm).reacts hreacts hr
  | passage hpop => exact ⟨rfl, leg, h.congr rfl rfl rfl (Nat.le_max_left ..) List.suffix_rfl⟩

theorem Leaves.helpersOnly (hs : Steps (Leaves e m) n n') : Steps HelpersOnly n n' :=
  steps_mono (fun _ _ => And.left) hs

theorem Conducts.steps (h : n.Conducts e m p leg) (hn₀ : n₀.IsBuilt) (h₀ : Steps HelpersOnly n₀ n)
    (hm : m.isTransitional = true) (hp : p.interval = n.config.stepInterval.toNat)
    (hs : Steps (Leaves e m) n n') (hr : n'.requestsFor e m = n.requestsFor e m) :
    n'.audience e m = n.audience e m ∧ ∃ leg', n'.Conducts e m p leg' := by
  induction hs with
  | refl => exact ⟨rfl, leg, h⟩
  | @tail n₁ n₂ hs hstep ih =>
    have hn := hn₀.sound.steps h₀
    have hn₁ := hn.steps hs
    have hle := steps_precedes hn hs
    have hr₁ := requestsFor_between hle (step_precedes hn₁ hstep) hr
    obtain ⟨haudience, leg₁, h₁⟩ := ih hr₁
    have hbetween := hn₀.betweenOperations (h₀.trans (Leaves.helpersOnly hs))
    obtain ⟨haudience', hleg'⟩ := h₁.step hn₁ hbetween hm (hp.trans (by rw [hle.config])) hstep
      (hr.trans hr₁.symm)
    exact ⟨haudience'.trans haudience, hleg'⟩

end Node

end MeshNode
