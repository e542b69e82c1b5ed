import MeshNode.Proofs.Clock.UnboundTermination

/-! # The passing of time in a part of a node

Timers fire in a part of a node without bindings when they fire in the node, so time passes there as
it does in the node.
-/

namespace MeshNode.Node

variable {n n' : Node} {keep : Scope} {e : UInt8} {m : Model} {timer : Timer} {ts : Timers}
  {horizon : Nat}

theorem armedWithinClock_of_focus (hk : keep timer.element timer.model = true)
    (h : (n.focus keep).timers.ArmedWithinClock timer) : n.timers.ArmedWithinClock timer := by
  rintro a ha rfl
  exact h a (List.mem_filter.mpr ⟨ha, hk⟩) rfl

theorem Sound.focus (h : n.Sound) (keep : Scope) : (n.focus keep).Sound where
  config := h.config
  ordered := by
    refine ⟨h.ordered.sorted.filter _, ?_, fun a ha hfits => ?_⟩
    · exact h.ordered.nodup.sublist (List.filter_sublist.map _)
    · obtain ⟨ha, hk⟩ := List.mem_filter.mp ha
      exact h.ordered.unwrapped a ha (armedWithinClock_of_focus hk hfits)
  hosted a ha := by
    obtain ⟨ha, hk⟩ := List.mem_filter.mp ha
    rw [hosts, get?_focus_of_keep hk]
    exact h.hosted a ha
  typed e m i hi := by
    rw [get?_focus] at hi
    split at hi
    · exact h.typed e m i hi
    · cases hi
  forgets e m i hi hs := by
    rw [get?_focus] at hi
    split at hi
    next hk =>
      have hdeadline : (n.focus keep).timers.deadline? (transactionTimer e m) =
          n.timers.deadline? (transactionTimer e m) := deadline?_focus hk
      rw [hdeadline]
      exact h.forgets e m i hi hs
    next => cases hi

theorem IsUnbound.focus (hb : n.IsUnbound) (keep : Scope) : (n.focus keep).IsUnbound := hb

theorem Steady.focus (hs : n.Steady) (hb : n.IsUnbound) (h : n.Sound) (keep : Scope) :
    (n.focus keep).Steady where
  typed := (h.focus keep).typed
  isCalm := (hb.focus keep).isCalm
  consistent e m c d hw := by
    by_cases hk : keep e m = true
    · have hd : (n.focus keep).timers.deadline? (transitionTimer e m) =
          n.timers.deadline? (transitionTimer e m) := deadline?_focus hk
      rw [watch, get?_focus_of_keep hk, hd] at hw
      exact hs.consistent e m c d hw
    · simp [watch, get?_focus_of_not_keep hk] at hw

theorem focus_popped_of_keep (hp : n.timers.pop? horizon = some (timer, ts))
    (hk : keep timer.element timer.model = true) :
    (n.focus keep).timers.pop? horizon =
      some (timer, (({ n with timers := ts } : Node).focus keep).timers) := by
  obtain ⟨d, hq, hd, hnow, harmings⟩ := Timers.pop?_eq_some hp
  have hqueue : (n.focus keep).timers.queue = ⟨timer, d⟩ ::
      (({ n with timers := ts } : Node).focus keep).timers.queue := by
    simp only [focus, hq]
    exact List.filter_cons_of_pos hk
  unfold Timers.pop?
  rw [hqueue]
  dsimp only
  rw [if_pos hd]
  simp only [focus, hnow, harmings]

/-- When a timer fires that a part has not, only the clock is moved there, and no timer was to fire
there before. -/
theorem focus_popped_of_not_keep (o : n.timers.Ordered)
    (hp : n.timers.pop? horizon = some (timer, ts))
    (hk : ¬ keep timer.element timer.model = true) :
    ∃ d, d ≤ horizon ∧ (∀ a ∈ n.timers.queue, d ≤ a.deadline) ∧
      ({ n with timers := ts } : Node).focus keep = (n.focus keep).tick d := by
  obtain ⟨d, hq, hd, hnow, harmings⟩ := Timers.pop?_eq_some hp
  refine ⟨d, hd, ?_, ?_⟩
  · have hsorted := o.sorted
    rw [hq] at hsorted ⊢
    rintro a ha
    rcases List.mem_cons.mp ha with rfl | ha
    · exact Nat.le_refl _
    · exact (List.pairwise_cons.mp hsorted).1 a ha
  · have hqueue : n.timers.queue.filter (fun a => keep a.timer.element a.timer.model) =
        ts.queue.filter fun a => keep a.timer.element a.timer.model := by
      rw [hq]
      exact List.filter_cons_of_neg hk
    simp only [focus, tick, Timers.settle, hqueue, hnow, harmings]

theorem focus_drains (h : n.Sound) (hb : n.IsUnbound) (hd : Drains horizon n n') (keep : Scope) :
    ∃ n₁, Drains horizon (n.focus keep) n₁ ∧ n₁.tick horizon = (n'.focus keep).tick horizon := by
  induction hd with
  | @done n hp =>
    refine ⟨n.focus keep, .done ?_, rfl⟩
    rw [Timers.pop?_eq_none_iff (h.focus keep).ordered]
    intro a ha
    exact (Timers.pop?_eq_none_iff h.ordered).mp hp a (List.mem_of_mem_filter ha)
  | @fire n n' timer ts hp _ ih =>
    have hs := h.toSane.popped hp
    obtain ⟨n₁, hd, heq⟩ := ih (h.onTimer hp) (IsUnbound.onTimer hb hs.typed)
    rw [focus_onTimer (n := { n with timers := ts }) hb hs.ordered] at hd
    by_cases hk : keep timer.element timer.model = true
    · exact ⟨n₁, .fire (focus_popped_of_keep hp hk) hd, heq⟩
    · obtain ⟨d, hle, hahead, htick⟩ := focus_popped_of_not_keep h.ordered hp hk
      rw [onTimer_focus_of_not_keep hk, htick] at hd
      have hahead : ∀ a ∈ (n.focus keep).timers.queue.head?, d ≤ a.deadline := fun a ha =>
        hahead a (List.mem_of_mem_filter (List.mem_of_mem_head? ha))
      obtain ⟨n₂, hd₂, heq₂⟩ := tick_drains hahead hle hd
      exact ⟨n₂, hd₂, heq₂.trans heq⟩

theorem focus_advanceTo (hs : n.Steady) (h : n.Sound) (hb : n.IsUnbound) :
    (n.advanceTo horizon).focus keep = (n.focus keep).advanceTo horizon := by
  obtain ⟨n₁, hd, heq⟩ := advancesTo_of_isUnbound hs h hb horizon
  obtain ⟨n₂, hd₂, heq₂⟩ := focus_drains h hb hd keep
  have hpart := advancesTo_of_isUnbound (hs.focus hb h keep) (h.focus keep) (hb.focus keep) horizon
  have hsame : (n.focus keep).advanceTo horizon = n₂.tick horizon := hpart.unique ⟨n₂, hd₂, rfl⟩
  rw [hsame, heq₂, heq]
  rfl

theorem focus_advance (hs : n.Steady) (h : n.Sound) (hb : n.IsUnbound) {ms : Nat} :
    (n.advance ms).focus keep = (n.focus keep).advance ms :=
  focus_advanceTo hs h hb

theorem timers_focus_reset (h : n.Sound) (keep : Scope) :
    (n.reset.focus keep).timers = (n.focus keep).reset.timers := by
  have hq := queue_reset h.hosted
  have hq' := queue_reset (h.focus keep).hosted
  have hnow : n.reset.timers.now = (n.focus keep).reset.timers.now :=
    (now_reset (n := n)).trans (now_reset (n := n.focus keep)).symm
  have harmings : (n.reset.focus keep).timers.armings = (n.focus keep).reset.timers.armings := by
    rw [armings_reset (n := n.focus keep)]
    simp only [focus, armings_reset]
  have hfocus : (n.reset.focus keep).timers = ⟨n.reset.timers.now,
      n.reset.timers.queue.filter fun a => keep a.timer.element a.timer.model,
      (n.reset.focus keep).timers.armings⟩ := rfl
  rw [hfocus, hq, hnow, harmings, List.filter_nil, ← hq']

theorem focus_reset (h : n.Sound) : n.reset.focus keep = (n.focus keep).reset := by
  have hel : (n.reset.focus keep).elements = (n.focus keep).reset.elements := by
    apply List.ext_getElem?
    intro k
    simp only [focus, reset, List.getElem?_mapIdx, List.getElem?_map, Option.map_map]
    congr 1
    funext el
    exact Element.restrict_map Instance.reset
  have htimers := timers_focus_reset h keep
  calc n.reset.focus keep
      = { n.focus keep with
          elements := (n.reset.focus keep).elements, timers := (n.reset.focus keep).timers } := rfl
    _ = (n.focus keep).reset := by rw [hel, htimers]; rfl

end MeshNode.Node
