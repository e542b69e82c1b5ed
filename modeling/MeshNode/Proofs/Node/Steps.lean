import Mathlib.Logic.Relation
import MeshNode.Proofs.Node.Soundness

/-! # Steps

A run is taken apart into steps: a call, the firing of the next timer that is due, or the passing
of time up to a moment at which none is. Sound nodes stay sound at every step.
-/

namespace MeshNode.Node

variable {n n' : Node} {e : UInt8} {m : Model} {timer : Timer} {ts : Timers} {horizon : Nat}
  {x : Call} {P : Node → Call → Prop}

/-- A call that is permitted where it is made, a timer that fires, or the passing of time. -/
inductive Step (P : Node → Call → Prop) (n : Node) : Node → Prop where
  | call (x : Call) (hx : P n x) : Step P n (n.handle x)
  | expiry {horizon : Nat} {timer : Timer} {ts : Timers}
    (h : n.timers.pop? horizon = some (timer, ts)) :
      Step P n ({ n with timers := ts }.onTimer timer)
  | passage {horizon : Nat} (h : n.timers.pop? horizon = none) :
    Step P n { n with timers := n.timers.settle horizon }

abbrev Steps (P : Node → Call → Prop) : Node → Node → Prop := Relation.ReflTransGen (Step P)

/-- What remains and what grows from one node to a later one. -/
structure Precedes (n n' : Node) : Prop where
  config : n'.config = n.config
  now : n.now ≤ n'.now
  armings : n.timers.armings <:+ n'.timers.armings
  shape : n'.shape = n.shape
  log : n.log <:+ n'.log
  bindings : n.bindings.bindings ⊆ n'.bindings.bindings

def IsUnbound (n : Node) : Prop := n.bindings.bindings = []

theorem Precedes.refl (n : Node) : n.Precedes n :=
  ⟨rfl, Nat.le_refl _, List.suffix_rfl, rfl, List.suffix_rfl, List.Subset.refl _⟩

theorem Precedes.trans {n₁ n₂ : Node} (h : n.Precedes n₁) (h' : n₁.Precedes n₂) : n.Precedes n₂ :=
  ⟨h'.config.trans h.config, h.now.trans h'.now, h.armings.trans h'.armings,
    h'.shape.trans h.shape, h.log.trans h'.log,
    List.Subset.trans h.bindings h'.bindings⟩

theorem Precedes.withinClock (h : n.Precedes n') (hin : n'.timers.WithinClock) :
    n.timers.WithinClock :=
  hin.of_suffix h.armings

/-- A node that has no bindings never had any. -/
theorem Precedes.isUnbound (h : n.Precedes n') (hb : n'.IsUnbound) : n.IsUnbound :=
  List.subset_nil.mp (hb ▸ h.bindings)

theorem Evolves.precedes (h : n.Evolves n') : n.Precedes n' :=
  ⟨h.config, h.now.ge, h.armings, h.shape, h.log, h.bindings ▸ List.Subset.refl _⟩

/-! ## Calls -/

theorem remember_precedes (n : Node) (c : Envelope) (m : Model) (k : UInt8) (ack : Bool) :
    n.Precedes (n.remember c m k ack) :=
  ⟨rfl, Nat.le_refl _, Timers.armings_arm, shape_remember, List.suffix_rfl, List.Subset.refl _⟩

theorem reset_precedes (n : Node) : n.Precedes n.reset :=
  ⟨rfl, now_reset.ge, armings_reset ▸ List.suffix_rfl, shape_reset, List.suffix_rfl,
    List.Subset.refl _⟩

theorem loaded_precedes (n : Node) (image : Image) : n.Precedes (n.loaded image) :=
  ⟨rfl, Nat.le_refl _, List.suffix_rfl, shape_modify, List.suffix_rfl, List.Subset.refl _⟩

theorem handle_precedes (hn : n.Typed) (x : Call) : n.Precedes (n.handle x) := by
  rcases handle_cases n x with h | ⟨table, h, hnew, -⟩ | rfl | ⟨s, rfl⟩ | ⟨c, message, rfl⟩
  · exact h.evolves.precedes
  · rw [h]
    exact { Precedes.refl n with bindings := hnew.old }
  · exact reset_precedes n
  · rcases restore_cases n s with ⟨-, h⟩ | ⟨-, -, -, h⟩
    · rw [h]
      exact .refl n
    · rw [h]
      exact loaded_precedes n s.image
  · rcases receive_evolves hn c message with ⟨h, -⟩ | ⟨n₀, k, ack, h₀, -, -, -, h⟩
    · exact h.precedes
    · exact (h₀.evolves.precedes.trans (remember_precedes n₀ c _ k ack)).trans h.precedes

theorem now_handle (hn : n.Typed) (x : Call) : (n.handle x).now = n.now := by
  rcases handle_cases n x with h | ⟨table, h, -⟩ | rfl | ⟨s, rfl⟩ | ⟨c, message, rfl⟩
  · exact h.evolves.now
  · rw [h]
    rfl
  · exact now_reset
  · rcases restore_cases n s with ⟨-, h⟩ | ⟨-, -, -, h⟩
    · rw [h]
    · rw [h]
      rfl
  · rcases receive_evolves hn c message with ⟨h, -⟩ | ⟨n₀, k, ack, h₀, -, -, -, h⟩
    · exact h.now
    · exact h.now.trans h₀.evolves.now

theorem bindings_cases (hn : n.Typed) (x : Call) : (n.handle x).bindings = n.bindings ∨
    Registers n.bindings (n.handle x).bindings x.registrations ∧ x.registrations ≠ [] := by
  rcases handle_cases n x with h | ⟨table, h, hnew, hne⟩ | rfl | ⟨s, rfl⟩ | ⟨c, message, rfl⟩
  · exact .inl h.evolves.bindings
  · rw [h]
    exact .inr ⟨hnew, hne⟩
  · exact .inl rfl
  · rcases restore_cases n s with ⟨-, h⟩ | ⟨-, -, -, h⟩
    · rw [h]
      exact .inl rfl
    · rw [h]
      exact .inl rfl
  · rcases receive_evolves hn c message with ⟨h, -⟩ | ⟨n₀, k, ack, h₀, -, -, -, h⟩
    · exact .inl h.bindings
    · exact .inl (h.bindings.trans h₀.evolves.bindings)

theorem Sound.handle (h : n.Sound) (x : Call) : (n.handle x).Sound := by
  rcases handle_cases n x with hw | ⟨table, hx, -⟩ | rfl | ⟨s, rfl⟩ | ⟨c, message, rfl⟩
  · exact h.evolves hw.evolves
  · rw [hx]
    exact { h with }
  · exact h.reset
  · rcases restore_cases n s with ⟨-, hs⟩ | ⟨hv, -, -, hs⟩
    · rwa [hs]
    · rw [hs]
      exact h.loaded hv
  · rcases receive_evolves h.typed c message with ⟨he, -⟩ | ⟨n₀, k, ack, h₀, -, -, hh, he⟩
    · exact h.evolves he
    · have hs := h.evolves h₀.evolves
      rw [← h₀.evolves.hosts] at hh
      exact Sound.evolves ⟨hs.toSane.remember hh, hs.forgets.remember⟩ he

theorem AtRest.handle (hr : n.AtRest) (h : n.Sound) (x : Call) : (n.handle x).AtRest := by
  rcases handle_cases n x with hw | ⟨table, hx, -⟩ | rfl | ⟨s, rfl⟩ | ⟨c, message, rfl⟩
  · exact hr.evolves h.toSane hw.evolves
  · rw [hx]
    exact hr
  · intro _ a ha
    have : a ∈ n.reset.timers.queue := ha
    simp [queue_reset h.hosted] at this
  · rcases restore_cases n s with ⟨-, hs⟩ | ⟨-, -, -, hs⟩
    · rwa [hs]
    · rw [hs]
      intro hin a ha
      exact hr hin a (Timers.mem_cancel.mp (Timers.mem_cancel.mp ha).1).1
  · rcases receive_evolves h.typed c message with ⟨he, -⟩ | ⟨n₀, k, ack, h₀, -, -, hh, he⟩
    · exact hr.evolves h.toSane he
    · have hs := h.evolves h₀.evolves
      rw [← h₀.evolves.hosts] at hh
      exact ((hr.evolves h.toSane h₀.evolves).remember hs.toSane).evolves
        (hs.toSane.remember hh) he

/-! ## Timers that fire -/

theorem Sane.popped (h : n.Sane) (hp : n.timers.pop? horizon = some (timer, ts)) :
    ({ n with timers := ts } : Node).Sane where
  config := h.config
  ordered := h.ordered.of_pop? hp
  hosted a ha := by
    obtain ⟨d, hq, -⟩ := Timers.pop?_eq_some hp
    exact h.hosted a (hq ▸ List.mem_cons_of_mem _ ha)
  typed := h.typed

theorem popped_precedes (hp : n.timers.pop? horizon = some (timer, ts)) :
    n.Precedes { n with timers := ts } :=
  ⟨rfl, Timers.now_le_popped hp, Timers.armings_popped hp ▸ List.suffix_rfl, rfl, List.suffix_rfl,
    List.Subset.refl _⟩

theorem watch_popped (hp : n.timers.pop? horizon = some (timer, ts))
    (hne : transitionTimer e m ≠ timer) :
    ({ n with timers := ts } : Node).watch e m = n.watch e m :=
  Prod.ext rfl (Timers.deadline?_pop?_of_ne hp hne)

/-- Nothing but the transaction of a popped timer is forgotten too late. -/
theorem Sound.forgets_popped (h : n.Sound) (hp : n.timers.pop? horizon = some (timer, ts))
    {i : Instance} (hi : n.get? e m = some i) (hs : i.transaction.source ≠ unassigned)
    (hne : transactionTimer e m ≠ timer) :
    ∃ d, ts.deadline? (transactionTimer e m) = some d ∧
      d ≤ ts.now + n.config.dedupTimeout.toNat := by
  obtain ⟨d, hd, hle⟩ := h.forgets e m i hi hs
  refine ⟨d, (Timers.deadline?_pop?_of_ne hp hne).trans hd, ?_⟩
  have : n.now ≤ ts.now := Timers.now_le_popped hp
  omega

def expired (n : Node) (e : UInt8) (m : Model) : Node :=
  n.modify e m fun i => { i with transaction := i.transaction.forget, deltaOrigin := none }

theorem watch_expired (n : Node) (e' : UInt8) (m' : Model) (e : UInt8) (m : Model) :
    (n.expired e' m').watch e m = n.watch e m := by
  refine watch_modify_of_course ?_ e m
  intro i
  rfl

theorem onTimer_transition : n.onTimer (transitionTimer e m) = n.onTransition e m := rfl

theorem onTimer_transaction : n.onTimer (transactionTimer e m) = n.expired e m := rfl

theorem timer_cases (timer : Timer) :
    ∃ e m, timer = transitionTimer e m ∨ timer = transactionTimer e m := by
  obtain ⟨e, m, purpose⟩ := timer
  cases purpose
  · exact ⟨e, m, .inl rfl⟩
  · exact ⟨e, m, .inr rfl⟩

theorem Sound.popped (h : n.Sound) (hp : n.timers.pop? horizon = some (transitionTimer e m, ts)) :
    ({ n with timers := ts } : Node).Sound :=
  ⟨h.toSane.popped hp, fun _ _ _ hi hs => h.forgets_popped hp hi hs (transactionTimer_ne _ _ _ _)⟩

theorem Sound.onTimer (h : n.Sound) (hp : n.timers.pop? horizon = some (timer, ts)) :
    (({ n with timers := ts } : Node).onTimer timer).Sound := by
  obtain ⟨e, m, rfl | rfl⟩ := timer_cases timer
  · rw [onTimer_transition]
    exact (h.popped hp).evolves (evolves_onTransition (h.popped hp).typed e m)
  · rw [onTimer_transaction]
    have hs := h.toSane.popped hp
    refine { config := hs.config, ordered := hs.ordered, hosted := ?_, typed := ?_, forgets := ?_ }
    · intro a ha
      rw [expired, hosts_congr shape_modify]
      exact hs.hosted a ha
    · intro e' m' i hi
      rcases get?_modify_eq_some hi with hi | ⟨rfl, rfl, j, hj, rfl⟩
      · exact h.typed e' m' i hi
      · exact (h.typed _ _ j hj).congr rfl
    · intro e' m' i hi hsrc
      by_cases hx : (e', m') = (e, m)
      · obtain ⟨rfl, rfl⟩ := Prod.mk.injEq .. ▸ hx
        rw [expired, get?_modify_self] at hi
        obtain ⟨j, -, rfl⟩ := Option.map_eq_some_iff.mp hi
        exact absurd rfl hsrc
      · rw [expired, get?_modify_of_ne hx] at hi
        exact h.forgets_popped hp hi hsrc fun ht => hx (transactionTimer_inj ht)

theorem onTimer_precedes (hn : n.Typed) (timer : Timer) : n.Precedes (n.onTimer timer) := by
  obtain ⟨e, m, rfl | rfl⟩ := timer_cases timer
  · exact (evolves_onTransition hn e m).precedes
  · exact ⟨rfl, Nat.le_refl _, List.suffix_rfl, shape_modify, List.suffix_rfl,
      List.Subset.refl _⟩

theorem bindings_onTimer (hn : n.Typed) (timer : Timer) :
    (n.onTimer timer).bindings = n.bindings := by
  obtain ⟨e, m, rfl | rfl⟩ := timer_cases timer
  · exact (evolves_onTransition hn e m).bindings
  · rfl

/-! ## Steps -/

theorem Sound.passage (h : n.Sound) (hp : n.timers.pop? horizon = none) :
    ({ n with timers := n.timers.settle horizon } : Node).Sound where
  config := h.config
  ordered := h.ordered.settle hp
  hosted := h.hosted
  typed := h.typed
  forgets e m i hi hs := by
    obtain ⟨d, hd, hle⟩ := h.forgets e m i hi hs
    refine ⟨d, hd, hle.trans (Nat.add_le_add_right ?_ _)⟩
    exact Nat.le_max_left ..

theorem Step.mono {Q : Node → Call → Prop} (hPQ : ∀ n x, P n x → Q n x) (hs : Step P n n') :
    Step Q n n' := by
  cases hs with
  | call x hx => exact .call x (hPQ n x hx)
  | expiry hp => exact .expiry hp
  | passage hp => exact .passage hp

theorem steps_mono {Q : Node → Call → Prop} (hPQ : ∀ n x, P n x → Q n x) (hs : Steps P n n') :
    Steps Q n n' :=
  Relation.ReflTransGen.mono (fun _ _ => Step.mono hPQ) n n' hs

theorem Sound.step (h : n.Sound) (hs : Step P n n') : n'.Sound := by
  cases hs with
  | call x hx => exact h.handle x
  | expiry hp => exact h.onTimer hp
  | passage hp => exact h.passage hp

theorem Sound.steps (h : n.Sound) (hs : Steps P n n') : n'.Sound := by
  induction hs with
  | refl => exact h
  | tail _ hs ih => exact ih.step hs

theorem forall_bindings_steps {Q : Binding Rule → Prop}
    (hQ : ∀ n x, P n x → ∀ b ∈ x.registrations, Q b) (hn : n.Sound) (hs : Steps P n n')
    (h : ∀ b ∈ n.bindings.bindings, Q b) : ∀ b ∈ n'.bindings.bindings, Q b := by
  induction hs with
  | refl => exact h
  | @tail n₁ n₂ hs hstep ih =>
    have hsound := hn.steps hs
    cases hstep with
    | call x hx =>
      rcases bindings_cases hsound.typed x with heq | ⟨hnew, -⟩
      · rwa [heq]
      · exact fun b hb => (hnew.mem b hb).elim (ih b) (hQ n₁ x hx b)
    | @expiry _ timer ts _ =>
      have hpopped : ({ n₁ with timers := ts } : Node).Typed := hsound.typed
      rw [bindings_onTimer hpopped]
      exact ih
    | passage => exact ih

theorem step_precedes (h : n.Sound) (hs : Step P n n') : n.Precedes n' := by
  cases hs with
  | call x hx => exact handle_precedes h.typed x
  | expiry hp =>
    exact (popped_precedes hp).trans (onTimer_precedes (h.toSane.popped hp).typed _)
  | passage hp =>
    exact ⟨rfl, Nat.le_max_left .., List.suffix_rfl, rfl, List.suffix_rfl, List.Subset.refl _⟩

theorem steps_precedes (h : n.Sound) (hs : Steps P n n') : n.Precedes n' := by
  induction hs with
  | refl => exact .refl n
  | tail hs hs' ih => exact ih.trans (step_precedes (h.steps hs) hs')

end MeshNode.Node
