import MeshNode.Proofs.Node.ChangeInvariants
import MeshNode.Proofs.Clock.SplitAdvance

/-! # The event loop comes to an end

Moving the clock means firing timers for as long as one is due, and a timer that fires can arm
others. It arms them for later only, so within the clock no timer goes off twice within a
millisecond, and the loop ends whatever rules are bound.
-/

namespace MeshNode

namespace Timers

inductive Rearms (t : Timers) : Timers → Prop where
  | refl : Rearms t t
  | cancel {t' : Timers} (h : Rearms t t') (timer : Timer) : Rearms t (t'.cancel timer)
  | arm {t' : Timers} (h : Rearms t t') (timer : Timer) {after : Nat} (ha : 0 < after) :
    Rearms t (t'.arm timer after)

variable {t t' t'' : Timers}

theorem Rearms.trans (h : t.Rearms t') (h' : t'.Rearms t'') : t.Rearms t'' := by
  induction h' with
  | refl => exact h
  | cancel _ timer ih => exact ih.cancel timer
  | arm _ timer ha ih => exact ih.arm timer ha

end Timers

namespace Node

variable {n n' n₁ n₂ : Node} {timer : Timer} {ts : Timers} {horizon : Nat} {a : Alarm}
  {as as' : List Alarm} {ops : List Operation} {P : Node → Call → Prop}

/-! ## What a firing arms -/

/-- The configuration stays, and timers are armed for later only. -/
def Postpones (n n' : Node) : Prop :=
  0 < n.config.stepInterval.toNat → 0 < n.config.dedupTimeout.toNat →
    n'.config = n.config ∧ n.timers.Rearms n'.timers

theorem closedUnderChanges_postpones (e : UInt8) (m : Model) :
    ClosedUnderChanges Postpones e m where
  refl _ _ _ := ⟨rfl, .refl⟩
  trans h h' hs hd := by
    obtain ⟨hc, ht⟩ := h hs hd
    obtain ⟨hc', ht'⟩ := h' (hc ▸ hs) (hc ▸ hd)
    exact ⟨hc'.trans hc, ht.trans ht'⟩
  note _ _ _ _ := ⟨rfl, .refl⟩
  modify _ _ _ _ _ := ⟨rfl, .refl⟩
  arm _ _ _ ha hs hd := ⟨rfl, .arm .refl _ (ha hs hd)⟩
  cancel _ _ _ _ := ⟨rfl, .cancel .refl _⟩

theorem closedUnderBindings_postpones : ClosedUnderBindings Postpones :=
  ClosedUnderChanges.closedUnderBindings closedUnderChanges_postpones fun _ _ _ _ => ⟨rfl, .refl⟩

/-- Whatever a timer that fires arms, it arms for later. -/
theorem rearms_onTimer (h : n.Sane) (timer : Timer) :
    n.timers.Rearms (n.onTimer timer).timers := by
  have hfires : n.Postpones (n.onTimer timer) :=
    (closedUnderChanges_postpones _ _).onTimer
      (fun n v => closedUnderBindings_postpones.follow n _ _ v) h.typed
  exact (hfires h.stepInterval_pos h.dedupTimeout_pos).2

/-! ## The loop -/

/-- Firing whatever timer is due by a time, for as long as one is, makes the alarms go off one after
the other and leaves the second node. -/
inductive Loops (horizon : Nat) : Node → List Alarm → Node → Prop where
  | done {n : Node} (h : n.timers.pop? horizon = none) : Loops horizon n [] n
  | fire {n n' : Node} {timer : Timer} {ts : Timers} {as : List Alarm}
    (h : n.timers.pop? horizon = some (timer, ts))
    (hl : Loops horizon (({ n with timers := ts } : Node).onTimer timer) as n') :
    Loops horizon n (⟨timer, ts.now⟩ :: as) n'

theorem Drains.loops (h : Drains horizon n n') : ∃ as, Loops horizon n as n' := by
  induction h with
  | done hp => exact ⟨[], .done hp⟩
  | fire hp _ ih =>
    obtain ⟨as, hl⟩ := ih
    exact ⟨_, .fire hp hl⟩

theorem exists_loops (h : n.Sound) (hin : (n.advanceTo horizon).timers.WithinClock) :
    ∃ as n', Loops horizon n as n' ∧ n.advanceTo horizon = n'.tick horizon := by
  obtain ⟨n', hd, heq⟩ := advancesTo_of_withinClock h hin
  obtain ⟨as, hl⟩ := hd.loops
  exact ⟨as, n', hl, heq⟩

namespace Loops

theorem unique (h : Loops horizon n as n₁) (h' : Loops horizon n as' n₂) :
    as' = as ∧ n₂ = n₁ := by
  induction h generalizing as' with
  | done hp =>
    cases h' with
    | done => exact ⟨rfl, rfl⟩
    | fire hp' => simp [hp] at hp'
  | fire hp _ ih =>
    cases h' with
    | done hp' => simp [hp] at hp'
    | fire hp' hl' =>
      obtain ⟨rfl, rfl⟩ := Prod.mk.injEq .. ▸ Option.some.inj (hp.symm.trans hp')
      obtain ⟨rfl, rfl⟩ := ih hl'
      exact ⟨rfl, rfl⟩

theorem drains (h : Loops horizon n as n') : Drains horizon n n' := by
  induction h with
  | done hp => exact .done hp
  | fire hp _ ih => exact .fire hp ih

theorem steps (h : Loops horizon n as n') : Steps P n n' := h.drains.steps P

theorem sound_tick (hl : Loops horizon n as n') (h : n.Sound) : (n'.tick horizon).Sound :=
  (h.steps (hl.steps (P := fun _ _ => True))).passage hl.drains.pop?_eq_none

theorem withinClock (hl : Loops horizon n as n') (h : n.Sound) (hin : n'.timers.WithinClock) :
    n.timers.WithinClock :=
  (steps_precedes h (hl.steps (P := fun _ _ => True))).withinClock hin

theorem mem_or_lt (hl : Loops horizon n as n') (h : n.Sound) (hin : n'.timers.WithinClock) :
    ∀ a ∈ as, a ∈ n.timers.queue ∨ n.now < a.deadline := by
  induction hl with
  | done => simp
  | @fire n n' timer ts as hp hl ih =>
    have hs := h.toSane.popped hp
    have hfired := hl.withinClock (h.onTimer hp) hin
    obtain ⟨hq, hnow, -⟩ := h.ordered.pop? ((Loops.fire hp hl).withinClock h hin) hp
    have hnow : n.now ≤ ts.now := hnow
    -- What the first firing leaves was set before it, or the firing armed it for later.
    rintro a ha
    rw [hq]
    rcases List.mem_cons.mp ha with rfl | ha
    · exact .inl List.mem_cons_self
    · rcases ih (h.onTimer hp) hin a ha with hmem | hlt
      · rcases mem_onTimer hs hfired hmem with hold | hlt
        · exact .inl (List.mem_cons_of_mem _ hold)
        · exact .inr (Nat.lt_of_le_of_lt hnow hlt)
      · rw [now_onTimer hs.typed] at hlt
        exact .inr (Nat.lt_of_le_of_lt hnow hlt)

theorem now_le (hl : Loops horizon n as n') (h : n.Sound) (hin : n'.timers.WithinClock) :
    ∀ a ∈ as, n.now ≤ a.deadline := by
  intro a ha
  rcases hl.mem_or_lt h hin a ha with hmem | hlt
  · exact h.ordered.ahead (hl.withinClock h hin) a hmem
  · exact hlt.le

/-- No alarm of the loop goes off after the time that it runs to, or behind the clock that it
leaves. -/
theorem le_horizon (hl : Loops horizon n as n') (h : n.Sound) (hin : n'.timers.WithinClock) :
    ∀ a ∈ as, a.deadline ≤ horizon ∧ a.deadline ≤ n'.now := by
  induction hl with
  | done => simp
  | @fire n n' timer ts as hp hl ih =>
    have hs := h.toSane.popped hp
    have hdue := (h.ordered.pop? ((Loops.fire hp hl).withinClock h hin) hp).2.2
    have hlater : ts.now ≤ n'.now :=
      calc ts.now = (({ n with timers := ts } : Node).onTimer timer).now :=
            (now_onTimer hs.typed timer).symm
        _ ≤ n'.now := (steps_precedes (h.onTimer hp) (hl.steps (P := fun _ _ => True))).now
    exact List.forall_mem_cons.mpr ⟨⟨hdue, hlater⟩, ih (h.onTimer hp) hin⟩

theorem notMem (hp : n.timers.pop? horizon = some (timer, ts)) (h : n.Sound)
    (hl : Loops horizon (({ n with timers := ts } : Node).onTimer timer) as n')
    (hin : n'.timers.WithinClock) : (⟨timer, ts.now⟩ : Alarm) ∉ as := by
  have hs := h.toSane.popped hp
  have hfired := hl.withinClock (h.onTimer hp) hin
  intro hmem
  rcases hl.mem_or_lt (h.onTimer hp) hin _ hmem with hset | hlt
  · rcases mem_onTimer hs hfired hset with hold | hlt
    · have hnone := h.ordered.deadline?_popped_self hp
      exact Timers.deadline?_eq_none_iff.mp hnone _ hold rfl
    · exact Nat.lt_irrefl _ hlt
  · rw [now_onTimer hs.typed] at hlt
    exact Nat.lt_irrefl _ hlt

theorem nodup (hl : Loops horizon n as n') (h : n.Sound) (hin : n'.timers.WithinClock) :
    as.Nodup := by
  induction hl with
  | done => exact .nil
  | fire hp hl ih => exact List.nodup_cons.mpr ⟨notMem hp h hl hin, ih (h.onTimer hp) hin⟩

theorem sorted (hl : Loops horizon n as n') (h : n.Sound) (hin : n'.timers.WithinClock) :
    as.Pairwise fun a b => a.deadline ≤ b.deadline := by
  induction hl with
  | done => exact .nil
  | @fire n n' timer ts as hp hl ih =>
    refine List.pairwise_cons.mpr ⟨fun b hb => ?_, ih (h.onTimer hp) hin⟩
    have hle := hl.now_le (h.onTimer hp) hin b hb
    rwa [now_onTimer (h.toSane.popped hp).typed] at hle

theorem length_le (hl : Loops horizon n as n') (h : n.Sound) (hin : n'.timers.WithinClock) :
    as.length ≤ n.firings horizon := by
  induction hl with
  | done => exact Nat.zero_le _
  | fire hp hl ih =>
    have hlt := firings_onTimer_lt h.toSane hp (hl.withinClock (h.onTimer hp) hin)
    have hle := ih (h.onTimer hp) hin
    rw [List.length_cons]
    omega

end Loops

theorem AtRest.firings (hr : n.AtRest) (hin : n.timers.WithinClock) (horizon : Nat) :
    n.firings horizon = n.timerCount * (horizon - n.now) := by
  have hdue : n.due = 0 := by
    refine List.countP_eq_zero.mpr fun a ha => ?_
    simpa using hr hin a ha
  rw [Node.firings, hdue, Nat.zero_add]

theorem AtRest.lt_deadline (hr : n.AtRest) (h : n.Sound) (hl : Loops horizon n as n')
    (hin : n'.timers.WithinClock) : ∀ a ∈ as, n.now < a.deadline := by
  intro a ha
  rcases hl.mem_or_lt h hin a ha with hmem | hlt
  · exact hr (hl.withinClock h hin) a hmem
  · exact hlt

/-! ## Runs with the loop in the place of a count -/

/-- The time up to which an operation fires timers, if it lets time pass. -/
def horizon? (n : Node) : Operation → Option Nat
  | .call _ => none
  | .advance ms => some (min (n.now + ms) lastMoment)
  | .advanceTo horizon => some horizon

/-- Carrying out operations, time passing by the loop, makes the alarms go off one after the other
and leaves the second node. -/
inductive Plays : Node → List Operation → List Alarm → Node → Prop where
  | done (n : Node) : Plays n [] [] n
  | call {n n' : Node} {ops : List Operation} {as : List Alarm} (x : Call)
    (h : Plays (n.handle x) ops as n') : Plays n (.call x :: ops) as n'
  | pass {n n₁ n' : Node} {op : Operation} {ops : List Operation} {as as' : List Alarm}
    {horizon : Nat} (hop : n.horizon? op = some horizon) (hl : Loops horizon n as n₁)
    (h : Plays (n₁.tick horizon) ops as' n') : Plays n (op :: ops) (as ++ as') n'

theorem perform_of_horizon? {op : Operation} (hop : n.horizon? op = some horizon) :
    n.perform op = n.advanceTo horizon := by
  cases op with
  | call x => cases hop
  | advance ms =>
    obtain rfl := Option.some.inj hop
    rfl
  | advanceTo horizon' =>
    obtain rfl := Option.some.inj hop
    rfl

theorem exists_plays (h : n.Sound) (hin : (n.run ops).timers.WithinClock) :
    ∃ as, Plays n ops as (n.run ops) := by
  induction ops generalizing n with
  | nil => exact ⟨[], .done n⟩
  | cons op ops ih =>
    obtain ⟨as', hplays⟩ := ih (h.perform op) hin
    have hpassed := (run_precedes (h.perform op) ops).withinClock hin
    cases hop : n.horizon? op with
    | none =>
      cases op with
      | call x => exact ⟨as', .call x hplays⟩
      | advance ms => cases hop
      | advanceTo horizon => cases hop
    | some horizon =>
      rw [perform_of_horizon? hop] at hpassed
      obtain ⟨as, n₁, hl, hto⟩ := exists_loops h hpassed
      refine ⟨as ++ as', .pass hop hl ?_⟩
      rwa [← hto, ← perform_of_horizon? hop]

namespace Plays

theorem unique (h : Plays n ops as n₁) (h' : Plays n ops as' n₂) : as' = as ∧ n₂ = n₁ := by
  induction h generalizing as' with
  | done n =>
    cases h' with
    | done => exact ⟨rfl, rfl⟩
  | call x _ ih =>
    cases h' with
    | call _ hp' => exact ih hp'
    | pass hop' => cases hop'
  | pass hop hl _ ih =>
    cases h' with
    | call => cases hop
    | pass hop' hl' hp' =>
      obtain rfl := Option.some.inj (hop.symm.trans hop')
      obtain ⟨rfl, rfl⟩ := hl.unique hl'
      obtain ⟨rfl, rfl⟩ := ih hp'
      exact ⟨rfl, rfl⟩

theorem steps (hp : Plays n ops as n') : Steps (fun _ _ => True) n n' := by
  induction hp with
  | done => exact .refl
  | call x _ ih => exact .head (.call x trivial) ih
  | pass _ hl _ ih => exact hl.steps.trans (.head (.passage hl.drains.pop?_eq_none) ih)

theorem withinClock (hp : Plays n ops as n') (h : n.Sound) (hin : n'.timers.WithinClock) :
    n.timers.WithinClock :=
  (steps_precedes h hp.steps).withinClock hin

/-- What one operation that lets time pass leaves to the others. -/
theorem passed {op : Operation} (hop : n.horizon? op = some horizon) (hl : Loops horizon n as n₁)
    (h : n.Sound) (hr : n.AtRest) (hin : n₁.timers.WithinClock) :
    n₁.tick horizon = n.perform op ∧ (n₁.tick horizon).Sound ∧ (n₁.tick horizon).AtRest ∧
      ∀ a ∈ as, a.deadline ≤ (n₁.tick horizon).now := by
  have heq : n.perform op = n₁.tick horizon :=
    (perform_of_horizon? hop).trans (AdvancesTo.eq ⟨n₁, hl.drains, rfl⟩ h hin)
  rw [← heq]
  refine ⟨rfl, h.perform op, hr.perform h op, fun a ha => ?_⟩
  rw [heq]
  exact (hl.le_horizon h hin a ha).1.trans (Nat.le_max_right ..)

theorem lt_deadline (hp : Plays n ops as n') (h : n.Sound) (hr : n.AtRest)
    (hin : n'.timers.WithinClock) : ∀ a ∈ as, n.now < a.deadline := by
  induction hp with
  | done => simp
  | call x _ ih =>
    rw [← now_handle h.typed x]
    exact ih (h.handle x) (hr.handle h x) hin
  | @pass n n₁ n' op ops as as' horizon hop hl hp ih =>
    have hin₁ : n₁.timers.WithinClock := hp.withinClock (hl.sound_tick h) hin
    obtain ⟨heq, hs, hr', -⟩ := passed hop hl h hr hin₁
    have hnow : n.now ≤ (n₁.tick horizon).now := by
      rw [heq]
      exact (run_precedes h [op]).now
    intro a ha
    rcases List.mem_append.mp ha with ha | ha
    · exact hr.lt_deadline h hl hin₁ a ha
    · exact Nat.lt_of_le_of_lt hnow (ih hs hr' hin a ha)

theorem nodup (hp : Plays n ops as n') (h : n.Sound) (hr : n.AtRest)
    (hin : n'.timers.WithinClock) : as.Nodup := by
  induction hp with
  | done => exact .nil
  | call x _ ih => exact ih (h.handle x) (hr.handle h x) hin
  | pass hop hl hp ih =>
    have hin₁ := hp.withinClock (hl.sound_tick h) hin
    obtain ⟨-, hs, hr', hbefore⟩ := passed hop hl h hr hin₁
    refine List.nodup_append.mpr ⟨hl.nodup h hin₁, ih hs hr' hin, ?_⟩
    -- The loop leaves a node at rest, so that what goes off after it goes off later.
    rintro a ha _ hb rfl
    have hafter := hp.lt_deadline hs hr' hin a hb
    exact absurd (hbefore a ha) (Nat.not_le.mpr hafter)

theorem sorted (hp : Plays n ops as n') (h : n.Sound) (hr : n.AtRest)
    (hin : n'.timers.WithinClock) : as.Pairwise fun a b => a.deadline ≤ b.deadline := by
  induction hp with
  | done => exact .nil
  | call x _ ih => exact ih (h.handle x) (hr.handle h x) hin
  | pass hop hl hp ih =>
    have hin₁ := hp.withinClock (hl.sound_tick h) hin
    obtain ⟨-, hs, hr', hbefore⟩ := passed hop hl h hr hin₁
    refine List.pairwise_append.mpr ⟨hl.sorted h hin₁, ih hs hr' hin, fun a ha b hb => ?_⟩
    exact (hbefore a ha).trans (hp.lt_deadline hs hr' hin b hb).le

/-- Every timer of the node goes off at most once for every millisecond that passes. -/
theorem length_le (hp : Plays n ops as n') (h : n.Sound) (hr : n.AtRest)
    (hin : n'.timers.WithinClock) : as.length ≤ n.timerCount * (n'.now - n.now) := by
  induction hp with
  | done => exact Nat.zero_le _
  | call x _ ih =>
    have hcount := (handle_precedes h.typed x).timerCount
    have hle := ih (h.handle x) (hr.handle h x) hin
    rwa [hcount, now_handle h.typed x] at hle
  | @pass n n₁ n' op ops as as' horizon hop hl hp ih =>
    have hin₁ : n₁.timers.WithinClock := hp.withinClock (hl.sound_tick h) hin
    obtain ⟨heq, hs, hr', -⟩ := passed hop hl h hr hin₁
    have hpassed : n.Precedes (n₁.tick horizon) := heq ▸ run_precedes h [op]
    have hlast : (n₁.tick horizon).now ≤ n'.now := (steps_precedes hs hp.steps).now
    have hhorizon : horizon ≤ (n₁.tick horizon).now := Nat.le_max_right ..
    have hrest := ih hs hr' hin
    rw [hpassed.timerCount] at hrest
    -- From rest no alarm is due yet, so each timer has one firing for each millisecond that passes.
    have hfirst : as.length ≤ n.timerCount * ((n₁.tick horizon).now - n.now) :=
      calc as.length ≤ n.firings horizon := hl.length_le h hin₁
        _ = n.timerCount * (horizon - n.now) := hr.firings (hl.withinClock h hin₁) horizon
        _ ≤ n.timerCount * ((n₁.tick horizon).now - n.now) := Nat.mul_le_mul_left _ (by omega)
    have htime : (n₁.tick horizon).now - n.now + (n'.now - (n₁.tick horizon).now) =
        n'.now - n.now := by
      have := hpassed.now
      omega
    calc (as ++ as').length = as.length + as'.length := List.length_append
      _ ≤ n.timerCount * ((n₁.tick horizon).now - n.now) +
          n.timerCount * (n'.now - (n₁.tick horizon).now) := Nat.add_le_add hfirst hrest
      _ = n.timerCount * (n'.now - n.now) := by rw [← Nat.mul_add, htime]

end Plays

/-- The event loop comes to an end unless the clock does. A timer that fires in any state of a node
arms timers for later only, so that from any state the loop runs to any time in finitely many
firings. In every run of a new node, whatever rules are bound, exactly one sequence of alarms goes
off: in the order of time, each timer at most once in each millisecond, and so no more often than
there are timers for each millisecond that has passed. -/
theorem loop_ends (hn : n.IsBuilt) :
    (∀ n₁ horizon timer ts, Steps (fun _ _ => True) n n₁ →
      n₁.timers.pop? horizon = some (timer, ts) →
        ts.Rearms (({ n₁ with timers := ts } : Node).onTimer timer).timers) ∧
      (∀ n₁ horizon, Steps (fun _ _ => True) n n₁ →
        (n₁.advanceTo horizon).timers.WithinClock →
          ∃ as n', Loops horizon n₁ as n' ∧ n₁.advanceTo horizon = n'.tick horizon) ∧
      ∀ ops, (n.run ops).timers.WithinClock →
        ∃ fired, (∀ as n', Plays n ops as n' ↔ as = fired ∧ n' = n.run ops) ∧
          fired.Nodup ∧ fired.Pairwise (fun a b => a.deadline ≤ b.deadline) ∧
          fired.length ≤ n.timerCount * ((n.run ops).now - n.now) := by
  have h := hn.sound
  have hr := hn.atRest
  refine ⟨fun n₁ horizon timer ts hs hp => ?_, fun n₁ horizon hs hin => ?_, fun ops hin => ?_⟩
  · exact rearms_onTimer ((h.steps hs).toSane.popped hp) timer
  · exact exists_loops (h.steps hs) hin
  · obtain ⟨fired, hplays⟩ := exists_plays h hin
    refine ⟨fired, fun as n' => ?_, hplays.nodup h hr hin, hplays.sorted h hr hin,
      hplays.length_le h hr hin⟩
    constructor
    · exact fun hp => hplays.unique hp
    · rintro ⟨rfl, rfl⟩
      exact hplays

/-- A delayed request to go to a level in steps of a second, with a rule that asks for another level
at each of them. -/
theorem loop_ends_soloLevel :
    let ops : List Operation :=
      [.call (.bind ⟨.level, .level, 0, 0⟩ (Rule.always (.level 5) 0 0 .binding)),
        .call (.request (.application 0 (.level 3000) 3000 2))]
    let n := soloLevel.run ops
    let ts : Timers := ⟨10, [], [⟨transitionTimer 0 .level, 10⟩]⟩
    soloLevel.IsBuilt ∧ Steps (fun _ _ => True) soloLevel n ∧
      n.timers.pop? 1700 = some (transitionTimer 0 .level, ts) ∧
      ts.Rearms (({ n with timers := ts } : Node).onTimer (transitionTimer 0 .level)).timers ∧
      (∃ as n', Loops 1700 n as n' ∧ n.advanceTo 1700 = n'.tick 1700) ∧
      ∃ fired, (∀ as n', Plays soloLevel (ops ++ [.advanceTo 1700]) as n' ↔
          as = fired ∧ n' = soloLevel.run (ops ++ [.advanceTo 1700])) ∧
        fired.Nodup ∧ fired.Pairwise (fun a b => a.deadline ≤ b.deadline) ∧
        fired.length ≤ soloLevel.timerCount *
          ((soloLevel.run (ops ++ [.advanceTo 1700])).now - soloLevel.now) := by
  intro ops n ts
  have hs : Steps (fun _ _ => True) soloLevel n :=
    run_steps (admits_of_forall (fun _ _ _ => trivial) _)
  have hp : n.timers.pop? 1700 = some (transitionTimer 0 .level, ts) := by decide +kernel
  have hin : (n.advanceTo 1700).timers.WithinClock := by decide +kernel
  have hrun : (soloLevel.run (ops ++ [.advanceTo 1700])).timers.WithinClock := by decide +kernel
  obtain ⟨hrearms, hloops, hplays⟩ := loop_ends isBuilt_soloLevel
  exact ⟨isBuilt_soloLevel, hs, hp, hrearms n 1700 _ _ hs hp, hloops n 1700 hs hin,
    hplays _ hrun⟩

end Node

end MeshNode
