import MeshNode.Proofs.Node.NewNodes
import MeshNode.Proofs.Transition.TimerConsistency

/-! # Timers and instances agree throughout

A node whose bindings come from the helpers keeps its timers in agreement with its instances,
whatever is asked of it and however time passes: the timer for the changes of an instance is armed
exactly while the instance is busy, a remembered transaction is about to be forgotten, and nothing
else is armed.
-/

namespace MeshNode.Node

variable {n n' : Node} {e : UInt8} {m : Model} {x : Call} {timer : Timer} {ts : Timers}
  {horizon k : Nat}

/-- The call registers no bindings but those of the helpers. -/
def HelpersOnly (_ : Node) (x : Call) : Prop := ∀ link rule, x ≠ .bind link rule

/-- What all steps of a node keep whose bindings are calm. -/
structure Steady (n : Node) : Prop where
  typed : n.Typed
  isCalm : n.IsCalm
  consistent : n.Consistent n.config.stepInterval.toNat

/-! ## Calls -/

theorem HelpersOnly.isHelper (hx : n.HelpersOnly x) : ∀ b ∈ x.registrations, b.IsHelper := by
  cases x with
  | bind link rule => exact absurd rfl (hx link rule)
  | bindLightnessToLevel lightness level =>
    exact List.forall_mem_cons.mpr ⟨.lightnessToLevel _ _,
      List.forall_mem_singleton.mpr (.levelToLightness _ _)⟩
  | bindLightnessToOnOff lightness onOff =>
    exact List.forall_mem_cons.mpr ⟨.lightnessToOnOff _ _,
      List.forall_mem_singleton.mpr (.onOffToLightness _ _)⟩
  | bindOnOffToOnPowerUp power onOff =>
    exact List.forall_mem_singleton.mpr (.onPowerUpToOnOff _ _)
  | bindLightnessToOnPowerUp power lightness =>
    exact List.forall_mem_singleton.mpr (.onPowerUpToLightness _ _)
  | _ => simp [Call.registrations]

theorem Steady.works (h : n.Steady) (hw : n.Works n') : n'.Steady := by
  have he := hw.evolves
  refine ⟨he.typed h.typed, h.isCalm.evolves he, ?_⟩
  rw [he.config]
  exact hw.consistent h.typed h.isCalm rfl h.consistent

theorem Steady.acts (h : n.Steady) (ha : n.Acts x) : (n.handle x).Steady := by
  cases ha with
  | works hw => exact h.works hw
  | @retunes e lo hi light hw =>
    have he := evolves_retuned n e light
    refine Steady.works ⟨he.typed h.typed, h.isCalm.evolves he, ?_⟩ hw
    exact h.consistent.congr (watch_retuned n e light)

theorem Steady.moves (h : n.Steady) (hm : n.Moves e n') : n'.Steady := by
  have he := hm.evolves h.typed
  refine ⟨he.typed h.typed, h.isCalm.evolves he, ?_⟩
  rw [he.config]
  exact hm.consistent h.typed h.isCalm rfl h.consistent

theorem Steady.remember (h : n.Steady) {c : Envelope} {k : UInt8} {ack : Bool} :
    (n.remember c m k ack).Steady :=
  ⟨typed_remember h.typed, h.isCalm, h.consistent.congr watch_remember⟩

theorem Steady.modify (h : n.Steady) {f : Instance → Instance}
    (ht : ∀ i, i.Typed m → (f i).Typed m)
    (hc : ∀ (i : Instance) k d, i.Typed m → i.course.IsConsistent k d →
      (f i).course.IsConsistent k d) :
    (n.modify e m f).Steady := by
  refine ⟨?_, h.isCalm, ?_⟩
  · intro e' m' i hi
    rcases get?_modify_eq_some hi with hi | ⟨rfl, rfl, j, hj, rfl⟩
    · exact h.typed e' m' i hi
    · exact ht j (h.typed e' m' j hj)
  · apply consistent_of_others
    · intro c d hw
      obtain ⟨j, hj, rfl, hd⟩ := watch_eq_some hw
      rw [get?_modify_self] at hj
      obtain ⟨i, hi, rfl⟩ := Option.map_eq_some_iff.mp hj
      exact hc i _ d (h.typed e m i hi)
        (h.consistent e m _ _ ((watch_of_get? hi).trans (congrArg _ hd)))
    · intro e' m' hx
      exact (h.consistent e' m').congr (watch_modify_of_ne hx)

theorem Steady.receive (h : n.Steady) (c : Envelope) (message : Message) :
    (n.receive c message).1.Steady := by
  have hr := reception n c message
  generalize n.receive c message = res at hr ⊢
  cases hr with
  | absent | dropped | duplicate => exact h
  | answered m hm ht => exact h.works (.tells ht)
  | @stored n' v hk hv ht hget htells =>
    refine Steady.works (h.modify (fun i hi => ?_) fun i k d htyped hi => ?_) (.tells htells)
    · exact ⟨rfl, rfl, hi.stepping, hi.motion⟩
    · refine ⟨hi.armed, hi.idle, hi.stepping, fun motion hm => ?_⟩
      -- Only levels move, and those are not stored.
      have hlevel := htyped.motion (Option.isSome_of_eq_some hm)
      rw [← hv, hlevel] at ht
      cases ht
  | @taken i k n₀ n₁ n' ack hi hk hr h₀ hlog h₁ hworks =>
    have hremembered : (n₀.remember c message.model k ack).Steady := (h.works h₀).remember
    rcases h₁ with rfl | ⟨-, hm⟩
    · exact hremembered.works hworks
    · exact (hremembered.moves hm).works hworks

/-- An instance that starts anew has nothing in progress, and nothing is armed. -/
theorem consistent_reset (hq : n.reset.timers.queue = []) : n.reset.Consistent k := by
  intro e m c d hw
  obtain ⟨j, hj, rfl, rfl⟩ := watch_eq_some hw
  rw [get?_reset] at hj
  obtain ⟨i, -, rfl⟩ := Option.map_eq_some_iff.mp hj
  have hd : n.reset.timers.deadline? (transitionTimer e m) = none :=
    Timers.deadline?_eq_none_iff.mpr (by simp [hq])
  rw [hd]
  exact Course.isConsistent_finish k i.course i.present

theorem consistent_loaded {image : Image} (h : n.Consistent k) :
    (n.loaded image).Consistent k := by
  apply consistent_of_others
  · intro c d hw
    obtain ⟨j, hj, rfl, rfl⟩ := watch_eq_some hw
    rw [loaded, get?_modify_self] at hj
    obtain ⟨i, -, rfl⟩ := Option.map_eq_some_iff.mp hj
    have hd : (n.loaded image).timers.deadline? (transitionTimer image.element image.model) =
        none :=
      (Timers.deadline?_cancel_of_ne (transactionTimer_ne _ _ _ _).symm).trans
        Timers.deadline?_cancel_self
    rw [hd]
    exact ⟨by simp [Instance.load, Instance.reset, Instance.course],
      fun _ => ⟨rfl, rfl, rfl⟩, (by cases ·), fun _ => (by cases ·)⟩
  · intro e m hx
    exact (h e m).congr (watch_loaded hx)

theorem Steady.handle (hs : n.Steady) (h : n.Sound) (hx : (n.handle x).IsCalm) :
    (n.handle x).Steady := by
  rcases handle_cases n x with ha | ⟨table, heq, -, -⟩ | rfl | ⟨s, rfl⟩ | ⟨c, message, rfl⟩
  · exact hs.acts ha
  · rw [heq] at hx ⊢
    exact ⟨hs.typed, hx, hs.consistent⟩
  · exact ⟨h.reset.typed, hs.isCalm, consistent_reset (queue_reset h.hosted)⟩
  · rcases restore_cases n s with ⟨-, heq⟩ | ⟨hv, -, -, heq⟩
    · rwa [heq]
    · rw [heq]
      exact ⟨(h.loaded hv).typed, hs.isCalm, consistent_loaded hs.consistent⟩
  · exact hs.receive c message

/-! ## Steps -/

theorem Steady.onTimer (hs : n.Steady) (h : n.Sound)
    (hp : n.timers.pop? horizon = some (timer, ts)) :
    (({ n with timers := ts } : Node).onTimer timer).Steady := by
  have htyped := (h.onTimer hp).typed
  have hcalm : ({ n with timers := ts } : Node).IsCalm := hs.isCalm
  obtain ⟨e, m, rfl | rfl⟩ := timer_cases timer
  · rw [onTimer_transition] at htyped ⊢
    have he := evolves_onTransition (n := { n with timers := ts }) hs.typed e m
    refine ⟨htyped, hcalm.evolves he, ?_⟩
    obtain ⟨d, hd, -⟩ := Timers.deadline?_popped_le hp
    rw [he.config]
    refine consistent_onTransition hs.typed hcalm rfl (fun e' m' hx => ?_)
      (h.ordered.deadline?_popped_self hp) fun i hi => ?_
    · exact (hs.consistent e' m').congr (watch_popped hp (transitionTimer_ne hx))
    · have hi : n.get? e m = some i := hi
      exact ⟨_, hs.consistent e m _ _ ((watch_of_get? hi).trans (congrArg _ hd))⟩
  · rw [onTimer_transaction] at htyped ⊢
    refine ⟨htyped, hcalm, hs.consistent.congr fun e' m' => ?_⟩
    rw [watch_expired]
    exact watch_popped hp (transactionTimer_ne _ _ _ _).symm

theorem HelpersOnly.isCalm (hx : n.HelpersOnly x) (h : n.Sound) (hc : n.IsCalm) :
    (n.handle x).IsCalm := by
  rcases bindings_cases h.typed x with heq | ⟨hnew, -⟩
  · rwa [IsCalm, heq]
  · intro b hb
    rcases hnew.mem b hb with hold | hb
    · exact hc b hold
    · exact (hx.isHelper b hb).isCalm

theorem Steady.step (hs : n.Steady) (h : n.Sound) (hstep : Step HelpersOnly n n') : n'.Steady := by
  cases hstep with
  | call x hx => exact hs.handle h (hx.isCalm h hs.isCalm)
  | expiry hp => exact hs.onTimer h hp
  | passage hp => exact ⟨hs.typed, hs.isCalm, hs.consistent.congr fun _ _ => rfl⟩

theorem Steady.steps (hs : n.Steady) (h : n.Sound) (hsteps : Steps HelpersOnly n n') :
    n'.Steady := by
  induction hsteps with
  | refl => exact hs
  | tail hsteps hstep ih => exact ih.step (h.steps hsteps) hstep

theorem IsBuilt.steady (h : n.IsBuilt) : n.Steady where
  typed := h.sound.typed
  isCalm b hb := by simp [h.bindings] at hb
  consistent e m c d hw := by
    obtain ⟨i, hi, rfl, rfl⟩ := watch_eq_some hw
    obtain ⟨-, v, -, hc⟩ := h.isFresh hi
    have hd : n.timers.deadline? (transitionTimer e m) = none :=
      Timers.deadline?_eq_none_iff.mpr (by simp [h.queue])
    rw [hd, hc]
    exact Course.isConsistent_finish _ (.fresh v) v

theorem IsBuilt.isHelper (h : n.IsBuilt) (hs : Steps HelpersOnly n n') :
    ∀ b ∈ n'.bindings.bindings, b.IsHelper :=
  forall_bindings_steps (fun _ _ hx => hx.isHelper) h.sound hs (by simp [h.bindings])

theorem admits_helpersOnly {ops : List Operation}
    (hops : ∀ link rule, .call (.bind link rule) ∉ ops)
    (n : Node) : n.Admits HelpersOnly ops := by
  refine admits_of_forall ?_ n
  rintro n x hx link rule rfl
  exact hops link rule hx

theorem IsBuilt.steady_run {ops : List Operation} (h : n.IsBuilt)
    (hops : ∀ link rule, .call (.bind link rule) ∉ ops) : (n.run ops).Steady :=
  h.steady.steps h.sound (run_steps (admits_helpersOnly hops n))

/-! ## Agreement -/

/-- Every instance of the node agrees with its timers, and no other timer is armed. Within the clock
none of them is due. -/
structure Agrees (n : Node) : Prop where
  armed : ∀ e m i, n.get? e m = some i →
    (n.timers.isArmed (transitionTimer e m) = true ↔ i.phase ≠ .idle)
  idle : ∀ e m i, n.get? e m = some i → i.phase = .idle →
    i.motion = none ∧ i.stepping = .none ∧ i.edgeResolved = false
  stepping : ∀ e m i, n.get? e m = some i → 0 < i.stepping.steps →
    i.motion = none ∧ i.stepping.steps = i.remaining / n.config.stepInterval.toNat ∧
      2 ≤ i.stepping.steps
  remembered : ∀ e m i, n.get? e m = some i → i.transaction.source ≠ unassigned →
    ∃ left, n.timers.remaining? (transactionTimer e m) = some left ∧
      left ≤ n.config.dedupTimeout.toNat
  pending : ∀ a ∈ n.timers.queue, n.hosts a.timer.element a.timer.model ∧
    (n.timers.WithinClock → n.now < a.deadline)

theorem Steady.agrees (hs : n.Steady) (h : n.Sound) (hr : n.AtRest) : n.Agrees where
  armed e m i hi := by
    rw [Timers.isArmed_eq, (hs.consistent e m _ _ (watch_of_get? hi)).armed, ne_eq,
      Instance.phase_eq_idle_iff, not_not]
    rfl
  idle e m i hi hidle :=
    (hs.consistent e m _ _ (watch_of_get? hi)).idle (Instance.phase_eq_idle_iff.mp hidle)
  stepping e m i hi hsteps := (hs.consistent e m _ _ (watch_of_get? hi)).stepping hsteps
  remembered e m i hi hsource := by
    obtain ⟨d, hd, hle⟩ := h.forgets e m i hi hsource
    refine ⟨d - n.timers.now, by rw [Timers.remaining?_eq, hd, Option.map_some], ?_⟩
    exact Nat.sub_le_iff_le_add'.mpr hle
  pending a ha := ⟨h.hosted a ha, fun hin => hr hin a ha⟩

/-- After any run in which only helpers register bindings the instances agree with their timers,
starting anew leaves nothing armed, and no interim step on the way there is one too many. -/
theorem timers_agree {ops : List Operation} (hn : n.IsBuilt)
    (hops : ∀ link rule, .call (.bind link rule) ∉ ops) :
    (n.run ops).Agrees ∧ (n.run ops).reset.timers.queue = [] ∧
      ∀ n', Steps HelpersOnly n n' → ∀ e m i, n'.get? e m = some i → 0 < i.stepping.steps →
        2 ≤ i.stepping.steps ∧ n'.config.stepInterval.toNat < i.remaining := by
  have hsound := hn.sound.run ops
  have hsteady := hn.steady_run hops
  refine ⟨hsteady.agrees hsound (hn.atRest.run hn.sound ops), queue_reset hsound.hosted, ?_⟩
  intro n' hsteps e m i hi hs
  have hc := (hn.steady.steps hn.sound hsteps).consistent e m _ _ (watch_of_get? hi)
  exact ⟨(hc.stepping hs).2.2, hc.lt_remaining (hn.sound.steps hsteps).stepInterval_pos hs⟩

theorem timers_agree_soloLevel :
    let n := soloLevel.run [.call (.bindLightnessToLevel 0 0),
      .call (.request (.application 0 (.level 3000) 3000 2)), .advance 1000]
    n.timers.isArmed (transitionTimer 0 .level) = true ∧ n.reset.timers.queue = [] ∧
      ∃ i, n.get? 0 .level = some i ∧ i.phase = .transitioning ∧
        i.stepping.steps = i.remaining / n.config.stepInterval.toNat := by
  intro n
  have hops : ∀ link rule, Operation.call (.bind link rule) ∉
      [.call (.bindLightnessToLevel 0 0),
        .call (.request (.application 0 (.level 3000) 3000 2)), .advance 1000] := by
    intro link rule
    simp
  obtain ⟨hagrees, hreset, -⟩ := timers_agree isBuilt_soloLevel hops
  have hhosts : n.hosts 0 .level = true := by decide +kernel
  obtain ⟨i, hi⟩ := hosts_iff.mp hhosts
  have hphase : (n.get? 0 .level).map Instance.phase = some .transitioning := by decide +kernel
  have hsteps : ((n.get? 0 .level).map fun i => decide (0 < i.stepping.steps)) = some true := by
    decide +kernel
  rw [hi, Option.map_some, Option.some.injEq] at hphase hsteps
  have hbusy : i.phase ≠ .idle := by simp [hphase]
  refine ⟨(hagrees.armed 0 .level i hi).mpr hbusy, hreset, i, hi, hphase, ?_⟩
  exact (hagrees.stepping 0 .level i hi (of_decide_eq_true hsteps)).2.1

/-- At the end of the clock a timer is armed for a time that has passed. -/
theorem overdue_soloLevel :
    let ops : List Operation :=
      [.advance lastMoment, .call (.request (.application 0 (.level 3000) 3000 0))]
    soloLevel.IsBuilt ∧ (∀ link rule, .call (.bind link rule) ∉ ops) ∧
      ∃ a ∈ (soloLevel.run ops).timers.queue, a.deadline ≤ (soloLevel.run ops).now := by
  intro ops
  refine ⟨isBuilt_soloLevel, by simp [ops], ?_⟩
  decide +kernel

end MeshNode.Node
