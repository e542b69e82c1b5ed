import MeshNode.Proofs.Node.NewNodes

/-! # The passing of time is cut anywhere

Moving the clock drains the timers that are due, one after the other. Where a caller stops on the
way leaves no trace: the timers left are the ones behind that moment, so the node goes on as if it
had not stopped, with the same effects in the same order.
-/

namespace MeshNode.Node

variable {n n' n₁ n₂ : Node} {timer : Timer} {ts : Timers} {horizon horizon' a b : Nat}

/-- Firing the timers that are due by a time, until none is, turns the first node into the
second. -/
inductive Drains (horizon : Nat) : Node → Node → Prop where
  | done {n : Node} (h : n.timers.pop? horizon = none) : Drains horizon n n
  | fire {n n' : Node} {timer : Timer} {ts : Timers}
    (h : n.timers.pop? horizon = some (timer, ts))
    (hd : Drains horizon (({ n with timers := ts } : Node).onTimer timer) n') : Drains horizon n n'

/-! ## Draining -/

theorem fire_drains {fuel : Nat} (hnone : (fire fuel horizon n).timers.pop? horizon = none) :
    Drains horizon n (fire fuel horizon n) := by
  induction fuel generalizing n with
  | zero => exact .done hnone
  | succ fuel ih =>
    rw [Node.fire] at hnone ⊢
    cases hp : n.timers.pop? horizon with
    | none => exact .done hp
    | some x =>
      rw [hp] at hnone
      exact .fire hp (ih hnone)

theorem Drains.unique (h₁ : Drains horizon n n₁) (h₂ : Drains horizon n n₂) : n₁ = n₂ := by
  induction h₁ with
  | done hp =>
    cases h₂ with
    | done => rfl
    | fire hp' => simp [hp] at hp'
  | fire hp _ ih =>
    cases h₂ with
    | done hp' => simp [hp] at hp'
    | fire hp' hd' =>
      obtain ⟨rfl, rfl⟩ := Prod.mk.injEq .. ▸ Option.some.inj (hp.symm.trans hp')
      exact ih hd'

theorem Drains.pop?_eq_none (hd : Drains horizon n n') : n'.timers.pop? horizon = none := by
  induction hd with
  | done hp => exact hp
  | fire _ _ ih => exact ih

theorem Drains.rest (hd : Drains horizon n n') (fuel : Nat) :
    Drains horizon (Node.fire fuel horizon n) n' := by
  induction fuel generalizing n with
  | zero => exact hd
  | succ fuel ih =>
    rw [Node.fire.eq_def]
    dsimp only
    cases hd with
    | done hp =>
      rw [hp]
      exact .done hp
    | fire hp hd =>
      rw [hp]
      exact ih hd

theorem Drains.steps (P : Node → Call → Prop) (hd : Drains horizon n n') : Steps P n n' := by
  induction hd with
  | done => exact .refl
  | fire hp _ ih => exact .head (.expiry hp) ih

theorem Drains.now_le (hd : Drains horizon n n') (h : n.Sound) (hle : n.now ≤ horizon) :
    n'.now ≤ horizon := by
  induction hd with
  | done => exact hle
  | fire hp _ ih =>
    refine ih (h.onTimer hp) ?_
    obtain ⟨d, -, hd, hnow, -⟩ := Timers.pop?_eq_some hp
    rw [now_onTimer (h.toSane.popped hp).typed]
    exact hnow.trans_le (Nat.max_le.mpr ⟨hle, hd⟩)

/-- The loop that moves the clock to a time comes to an end, with the second node. -/
def AdvancesTo (n : Node) (horizon : Nat) (n' : Node) : Prop :=
  ∃ n₁, Drains horizon n n₁ ∧ n' = n₁.tick horizon

theorem AdvancesTo.unique (h₁ : n.AdvancesTo horizon n₁) (h₂ : n.AdvancesTo horizon n₂) :
    n₁ = n₂ := by
  obtain ⟨_, hd₁, rfl⟩ := h₁
  obtain ⟨_, hd₂, rfl⟩ := h₂
  rw [hd₁.unique hd₂]

theorem AdvancesTo.now (ha : n.AdvancesTo horizon n') (h : n.Sound) (hle : n.now ≤ horizon) :
    n'.now = horizon := by
  obtain ⟨n₁, hd, rfl⟩ := ha
  exact Nat.max_eq_right (hd.now_le h hle)

theorem AdvancesTo.steps (P : Node → Call → Prop) (ha : n.AdvancesTo horizon n') :
    Steps P n n' := by
  obtain ⟨n₁, hd, rfl⟩ := ha
  exact .tail (hd.steps P) (.passage hd.pop?_eq_none)

/-- To advance is to drain the timers and to move the clock, if the firings allowed for are
enough. -/
theorem advancesTo_of_ends
    (hnone : (fire (n.firingBound horizon) horizon n).timers.pop? horizon = none) :
    n.AdvancesTo horizon (n.advanceTo horizon) :=
  ⟨_, fire_drains hnone, advanceTo_of_ends hnone⟩

theorem advancesTo_of_withinClock (h : n.Sound)
    (hin : (n.advanceTo horizon).timers.WithinClock) :
    n.AdvancesTo horizon (n.advanceTo horizon) :=
  advancesTo_of_ends (ends_of_withinClock h hin)

theorem AdvancesTo.eq (ha : n.AdvancesTo horizon n') (h : n.Sound)
    (hin : n'.timers.WithinClock) : n.advanceTo horizon = n' := by
  obtain ⟨n₁, hd, rfl⟩ := ha
  have hfire := h.steps (fire_steps (fun _ _ => True) (n.firingBound horizon) horizon n)
  have hrest := steps_precedes hfire ((hd.rest (n.firingBound horizon)).steps fun _ _ => True)
  have hends := fire_ends _ h (n.firings_le_firingBound horizon) (hrest.withinClock hin)
  exact (advancesTo_of_ends hends.1).unique ⟨n₁, hd, rfl⟩

/-- The loop that lets a number of milliseconds pass comes to an end, with the second node. -/
def Advances (n : Node) (ms : Nat) (n' : Node) : Prop :=
  n.AdvancesTo (min (n.now + ms) lastMoment) n'

/-! ## Stopping on the way -/

theorem tick_tick (h : horizon ≤ horizon') : (n.tick horizon).tick horizon' = n.tick horizon' := by
  have hmax : max (max n.timers.now horizon) horizon' = max n.timers.now horizon' := by omega
  simp only [tick, Timers.settle, hmax]

theorem lt_of_pop?_eq_none (hp : n.timers.pop? horizon = none) :
    ∀ a ∈ n.timers.queue.head?, horizon < a.deadline := by
  unfold Timers.pop? at hp
  split at hp
  next hq => simp [hq]
  next a rest hq =>
    rw [hq, List.head?_cons]
    rintro _ ⟨⟩
    by_contra hlt
    simp [if_pos (Nat.le_of_not_lt hlt)] at hp

/-- If no timer fires before a time, those due by a later one do not depend on whether the clock has
been moved there. -/
theorem pop?_tick (hq : ∀ a ∈ n.timers.queue.head?, horizon ≤ a.deadline) :
    (n.tick horizon).timers.pop? horizon' = n.timers.pop? horizon' := by
  unfold Timers.pop?
  simp only [tick, Timers.settle]
  split
  next => rfl
  next a rest heq =>
    have hle : horizon ≤ a.deadline := hq a (by rw [heq]; rfl)
    have hmax : max (max n.timers.now horizon) a.deadline = max n.timers.now a.deadline := by omega
    rw [hmax]

theorem pop?_mono (hp : n.timers.pop? horizon = some (timer, ts)) (h : horizon ≤ horizon') :
    n.timers.pop? horizon' = some (timer, ts) := by
  unfold Timers.pop? at hp ⊢
  split at hp
  next => cases hp
  next a rest _ =>
    split at hp
    next hle => rwa [if_pos (hle.trans h)]
    next => cases hp

theorem pop?_eq_none_of_le (hp : n.timers.pop? horizon' = none) (h : horizon ≤ horizon') :
    n.timers.pop? horizon = none := by
  cases hp' : n.timers.pop? horizon with
  | none => rfl
  | some x =>
    obtain ⟨timer, ts⟩ := x
    cases hp.symm.trans (pop?_mono hp' h)

/-- Moving the clock to where no timer has fired yet makes no difference to what comes after. -/
theorem tick_drains (hq : ∀ a ∈ n.timers.queue.head?, horizon ≤ a.deadline)
    (hle : horizon ≤ horizon') (h : Drains horizon' (n.tick horizon) n₂) :
    ∃ n₃, Drains horizon' n n₃ ∧ n₃.tick horizon' = n₂.tick horizon' := by
  cases h with
  | done hp => exact ⟨n, .done (pop?_tick hq ▸ hp), (tick_tick hle).symm⟩
  | fire hp hd => exact ⟨n₂, .fire (pop?_tick hq ▸ hp) hd, rfl⟩

theorem Drains.resume (h₁ : Drains horizon n n₁) (hle : horizon ≤ horizon')
    (h₂ : Drains horizon' (n₁.tick horizon) n₂) :
    ∃ n₃, Drains horizon' n n₃ ∧ n₃.tick horizon' = n₂.tick horizon' := by
  induction h₁ with
  | done hp =>
    refine tick_drains ?_ hle h₂
    exact fun a ha => (lt_of_pop?_eq_none hp a ha).le
  | fire hp _ ih =>
    obtain ⟨n₃, hd, heq⟩ := ih h₂
    exact ⟨n₃, .fire (pop?_mono hp hle) hd, heq⟩

/-- A loop that ends can be interrupted on the way. -/
theorem Drains.interrupt (h : Drains horizon' n n₂) (hle : horizon ≤ horizon') :
    ∃ n₁ n₃, Drains horizon n n₁ ∧ Drains horizon' (n₁.tick horizon) n₃ ∧
      n₃.tick horizon' = n₂.tick horizon' := by
  induction h with
  | @done n hp =>
    have hlate := lt_of_pop?_eq_none hp
    have hq : ∀ a ∈ n.timers.queue.head?, horizon ≤ a.deadline :=
      fun a ha => hle.trans (hlate a ha).le
    refine ⟨n, n.tick horizon, .done (pop?_eq_none_of_le hp hle), .done ?_, tick_tick hle⟩
    exact (pop?_tick hq).trans hp
  | @fire n n₂ timer ts hp hd ih =>
    cases hp' : n.timers.pop? horizon with
    | none =>
      have hq : ∀ a ∈ n.timers.queue.head?, horizon ≤ a.deadline :=
        fun a ha => (lt_of_pop?_eq_none hp' a ha).le
      exact ⟨n, n₂, .done hp', .fire ((pop?_tick hq).trans hp) hd, rfl⟩
    | some x =>
      obtain ⟨timer', ts'⟩ := x
      obtain ⟨rfl, rfl⟩ := Prod.mk.injEq .. ▸ Option.some.inj ((pop?_mono hp' hle).symm.trans hp)
      obtain ⟨n₁, n₃, hd₁, hd₃, heq⟩ := ih
      exact ⟨n₁, n₃, .fire hp' hd₁, hd₃, heq⟩

theorem advancesTo_iff (hle : horizon ≤ horizon') :
    n.AdvancesTo horizon' n' ↔ ∃ n₁, n.AdvancesTo horizon n₁ ∧ n₁.AdvancesTo horizon' n' := by
  constructor
  · rintro ⟨n₂, hd, rfl⟩
    obtain ⟨n₁, n₃, hd₁, hd₃, heq⟩ := hd.interrupt hle
    exact ⟨_, ⟨n₁, hd₁, rfl⟩, n₃, hd₃, heq.symm⟩
  · rintro ⟨_, ⟨n₁, hd₁, rfl⟩, n₂, hd₂, rfl⟩
    obtain ⟨n₃, hd₃, heq⟩ := hd₁.resume hle hd₂
    exact ⟨n₃, hd₃, heq.symm⟩

theorem advances_iff (h : n.Sound) (hab : n.now + a + b ≤ lastMoment) :
    n.Advances (a + b) n' ↔ ∃ n₁, n.Advances a n₁ ∧ n₁.Advances b n' := by
  have ha : min (n.now + a) lastMoment = n.now + a := Nat.min_eq_left (by omega)
  rw [Advances, Nat.min_eq_left (by omega), ← Nat.add_assoc,
    advancesTo_iff (Nat.le_add_right (n.now + a) b)]
  refine exists_congr fun n₁ => ?_
  rw [Advances, ha]
  refine and_congr_right fun h₁ => ?_
  rw [Advances, h₁.now h (Nat.le_add_right ..), Nat.min_eq_left hab]

/-- Letting time pass in two parts is letting it pass at once: the instances, the timers in their
order, the clock and everything done to the outside are the same, whatever rules are bound. The loop
in one comes to an end exactly if the two loops do, and it does unless a timer is armed past the end
of the clock. -/
theorem advance_advance (hn : n.IsReached) (hab : n.now + a + b ≤ lastMoment) :
    (∀ n', n.Advances (a + b) n' ↔ ∃ n₁, n.Advances a n₁ ∧ n₁.Advances b n') ∧
      ((n.advance (a + b)).timers.WithinClock →
        n.Advances (a + b) (n.advance (a + b)) ∧
          (n.advance a).advance b = n.advance (a + b)) := by
  have h := hn.sound
  refine ⟨fun n' => advances_iff h hab, fun hin => ?_⟩
  have hboth : n.Advances (a + b) (n.advance (a + b)) := advancesTo_of_withinClock h hin
  refine ⟨hboth, ?_⟩
  obtain ⟨n₁, h₁, h₂⟩ := (advances_iff h hab).mp hboth
  have hn₁ : n₁.Sound := h.steps (h₁.steps fun _ _ => True)
  have hin₁ : n₁.timers.WithinClock :=
    (steps_precedes hn₁ (h₂.steps fun _ _ => True)).withinClock hin
  have hfirst : n.advance a = n₁ := h₁.eq h hin₁
  have hsecond : n₁.advance b = n.advance (a + b) := h₂.eq hn₁ hin
  rw [hfirst, hsecond]

/-- A level on its way in steps of a second, which is asked for another one at each of them. -/
theorem advance_advance_soloLevel :
    let n := soloLevel.run
      [.call (.bind ⟨.level, .level, 0, 0⟩ (Rule.always (.level 5) 0 0 .binding)),
        .call (.request (.application 0 (.level 3000) 3000 2))]
    n.now + 1700 + 1400 ≤ lastMoment ∧ (n.advance 1700).advance 1400 = n.advance 3100 ∧
      (n.advance 3100).present? 0 .level = some (.level 5) := by
  intro n
  have hn : n.IsReached := ⟨soloLevel, _, isBuilt_soloLevel, rfl⟩
  have hnow : n.now + 1700 + 1400 ≤ lastMoment := by decide +kernel
  have hin : (n.advance 3100).timers.WithinClock := by decide +kernel
  obtain ⟨-, hadvance⟩ := advance_advance hn hnow
  exact ⟨hnow, (hadvance hin).2, by decide +kernel⟩

end MeshNode.Node
