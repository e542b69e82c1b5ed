import MeshNode.Proofs.Light.PowerUp
import MeshNode.Proofs.Bindings.PassedOnOnce
import MeshNode.Proofs.Light.LastLightness

/-! # Changes that change nothing

A change at once lands an instance on its target, and an instance that has landed there is where
another change to the same target would land it. So what has been asked for once can be asked for
again without effect, but for what is said about it.
-/

namespace MeshNode

theorem LightMemory.noting_noting (memory : LightMemory) (v : Value) :
    (memory.noting v).noting v = memory.noting v := by
  cases v with
  | lightness l =>
    by_cases hl : l = 0
    · simp [noting, hl]
    · simp [noting, hl]
  | _ => rfl

namespace Instance

def landed (i : Instance) (w : Value) (s : Source) (now : Nat) : Instance :=
  ({ i with source := s }.cleared w).display w s now

theorem landed_landed (i : Instance) (w : Value) (s : Source) (now now' : Nat) :
    (i.landed w s now).landed w s now' = i.landed w s now := by
  have hshown : (i.landed w s now).present = w := rfl
  have hnoted : (i.landed w s now).light.noting w = (i.landed w s now).light :=
    LightMemory.noting_noting i.light w
  generalize hj : i.landed w s now = j at hshown hnoted
  have hcleared : { j with source := s }.cleared w = j := by
    rw [← hj]
    rfl
  rw [landed, hcleared, display, hshown, hnoted]
  simp [Change.isChange, ← hshown]

end Instance

namespace Timers

theorem cancel_eq_self {t : Timers} {timer : Timer} (h : t.deadline? timer = none) :
    t.cancel timer = t := by
  have hqueue : t.queue.filter (·.timer ≠ timer) = t.queue :=
    List.filter_eq_self.mpr fun a ha => decide_eq_true (deadline?_eq_none_iff.mp h a ha)
  rw [cancel, hqueue]

end Timers

namespace Node

variable {n n₁ n' : Node} {e x : UInt8} {m : Model} {i : Instance} {v w : Value} {s : Source}
  {F : Follow}

/-! ## Landing -/

/-- The nodes differ by nothing but what has been done to the outside. -/
def Restates (n n' : Node) : Prop := ∃ log, n' = { n with log }

theorem Restates.refl (n : Node) : n.Restates n := ⟨_, rfl⟩

theorem Restates.trans (h : n.Restates n₁) (h' : n₁.Restates n') : n.Restates n' := by
  obtain ⟨_, rfl⟩ := h
  obtain ⟨_, rfl⟩ := h'
  exact ⟨_, rfl⟩

theorem Tells.restates (h : n.Tells n') : n.Restates n' := by
  obtain ⟨es, rfl, -⟩ := h
  exact ⟨_, rfl⟩

def landed (n : Node) (e : UInt8) (m : Model) (w : Value) (s : Source) : Node :=
  { n.modify e m (·.landed w s n.now) with timers := n.timers.cancel (transitionTimer e m) }

theorem confine_landed (i : Instance) (v w : Value) (s : Source) (now : Nat) :
    confine (i.landed w s now) v = confine i v := by
  cases v with
  | lightness l =>
    exact congrArg Value.lightness
      (congrFun (LightMemory.clamp_congr (LightMemory.range_noting i.light w)) l)
  | _ => rfl

theorem start_lands (hi : n.get? e m = some i) : ∃ log,
    Tells (({ n.landed e m (confine i v) s with log } : Node).passOn F e m (confine i v) s)
      (n.start F e m v 0 0 s none) := by
  let planned (j : Instance) : Instance :=
    { j with
      motion := none
      stepping := .plan i.present (confine i v) 0 n.config.stepInterval.toNat
      edgeResolved := false }
  let aimed (j : Instance) : Instance :=
    { j with remaining := 0, delay := 0, source := s, target := confine i v }
  let entered := (n.modify e m planned).note (.requested ⟨e, m, confine i v, 0, 0, s⟩ none)
  let taken := (entered.modify e m aimed).cancel (transitionTimer e m)
  have hentered : entered.get? e m = some (planned i) := by
    refine (get?_modify_self (f := planned)).trans ?_
    rw [hi, Option.map_some]
  have htaken : taken.get? e m = some (aimed (planned i)) := by
    refine (get?_modify_self (f := aimed)).trans ?_
    rw [hentered, Option.map_some]
  have hlanded : (((n.modify e m planned).modify e m aimed).modify e m
      (·.cleared (confine i v))).modify e m (·.display (confine i v) s n.now) =
        n.modify e m (·.landed (confine i v) s n.now) := by
    rw [modify_modify, modify_modify, modify_modify]
    rfl
  have hfinished : taken.finished e m (confine i v) s =
      { n.landed e m (confine i v) s with log := entered.log } :=
    congrArg (fun n' : Node => { n' with
      timers := n.timers.cancel (transitionTimer e m), log := entered.log }) hlanded
  refine ⟨entered.log, ?_⟩
  rw [start_immediate hi, program_immediate hentered, settle_eq htaken, ← hfinished]
  exact tells_report _ e m

/-! ## What has landed -/

/-- The instance is where a change at once, asked for by a source, would put it. -/
structure HasLanded (n : Node) (e : UInt8) (m : Model) (w : Value) (s : Source) : Prop where
  landed : ∀ i, n.get? e m = some i → ∀ now, i.landed (confine i w) s now = i
  unarmed : n.hosts e m = true → n.timers.deadline? (transitionTimer e m) = none

/-- From the first node to the second a source has put an instance on a value at once. -/
structure Lands (n n' : Node) (e : UInt8) (m : Model) (w : Value) (s : Source) : Prop where
  landed : ∃ now, n'.get? e m = (n.get? e m).map fun i => i.landed (confine i w) s now
  unarmed : n.hosts e m = true → n'.timers.deadline? (transitionTimer e m) = none

theorem Lands.get? (h : n.Lands n' e m w s) (hi : n.get? e m = some i) :
    ∃ now, n'.get? e m = some (i.landed (confine i w) s now) := by
  obtain ⟨now, hlanded⟩ := h.landed
  exact ⟨now, by rw [hlanded, hi, Option.map_some]⟩

theorem Lands.hosts (h : n.Lands n' e m w s) : n'.hosts e m = n.hosts e m := by
  obtain ⟨now, hlanded⟩ := h.landed
  rw [Node.hosts, hlanded, Option.isSome_map]
  rfl

theorem Lands.hasLanded (h : n.Lands n' e m w s) : n'.HasLanded e m w s where
  landed j hj now := by
    obtain ⟨_, hlanded⟩ := h.landed
    rw [hlanded] at hj
    obtain ⟨i, -, rfl⟩ := Option.map_eq_some_iff.mp hj
    rw [confine_landed, Instance.landed_landed]
  unarmed hh := h.unarmed (h.hosts.symm.trans hh)

theorem Lands.untouched (h : n.Lands n₁ e m w s) (hu : n₁.Untouched n' e m) :
    n.Lands n' e m w s where
  landed := by
    rw [hu.get?]
    exact h.landed
  unarmed hh := (hu.deadline? .transition).trans (h.unarmed hh)

theorem Untouched.lands (hu : n.Untouched n₁ e m) (h : n₁.Lands n' e m w s) :
    n.Lands n' e m w s where
  landed := by
    rw [← hu.get?]
    exact h.landed
  unarmed hh := h.unarmed (by rwa [hosts, hu.get?])

theorem lands_landed (hi : n.get? e m = some i) :
    n.Lands (n.landed e m (confine i w) s) e m w s where
  landed := by
    refine ⟨n.now, get?_modify_self.trans ?_⟩
    rw [hi]
    rfl
  unarmed _ := Timers.deadline?_cancel_self

theorem HasLanded.landed_eq (h : n.HasLanded e m w s) (hi : n.get? e m = some i) :
    n.landed e m (confine i w) s = n := by
  have hsame : n.modify e m (·.landed (confine i w) s n.now) = n :=
    modify_eq_self fun j hj => by
      obtain rfl := Option.some.inj (hi.symm.trans hj)
      exact h.landed i hi n.now
  rw [Node.landed, hsame, Timers.cancel_eq_self (h.unarmed (hosts_iff.mpr ⟨i, hi⟩))]

theorem HasLanded.untouched (h : n.HasLanded e m w s) (hu : n.Untouched n' e m) :
    n'.HasLanded e m w s where
  landed i hi := h.landed i (hu.get?.symm.trans hi)
  unarmed hh := by
    rw [hosts, hu.get?] at hh
    exact (hu.deadline? .transition).trans (h.unarmed hh)

theorem Restates.untouched (h : n.Restates n') (e : UInt8) (m : Model) : n.Untouched n' e m := by
  obtain ⟨log, rfl⟩ := h
  exact ⟨rfl, fun _ => rfl⟩

/-! ## Requests of bindings -/

theorem bound_lands (F : Follow) (hi : n.get? e w.model = some i) (hlegal : w.isLegal = true) :
    (n.landed e w.model (confine i w) .binding).Restates (n.carryOut F (.bound e w)) := by
  obtain ⟨log, ht⟩ := start_lands (v := w) (s := .binding) (F := F) hi
  rw [carryOut_bound hi hlegal]
  exact Restates.trans ⟨log, rfl⟩ ht.restates

theorem bound_refused (F : Follow) (hi : n.get? e w.model = none) :
    n.Restates (n.carryOut F (.bound e w)) := by
  have hcheck : n.check e w.model w = .invalidElement := by
    rw [check, hosts, hi]
    rfl
  rw [carryOut]
  split
  next h => cases hcheck.symm.trans h
  next => exact (tells_emit n _).restates

/-- A binding that asks for a value lands the instance there, if there is one. -/
theorem lands_bound (F : Follow) (n : Node) (e : UInt8) (hlegal : w.isLegal = true) :
    n.Lands (n.carryOut F (.bound e w)) e w.model w .binding := by
  cases hi : n.get? e w.model with
  | none =>
    have hu := (bound_refused F hi).untouched e w.model
    refine ⟨⟨n.now, by rw [hu.get?, hi, Option.map_none]⟩, fun hh => ?_⟩
    obtain ⟨i, hi'⟩ := hosts_iff.mp hh
    cases hi.symm.trans hi'
  | some i => exact (lands_landed hi).untouched ((bound_lands F hi hlegal).untouched e w.model)

theorem HasLanded.bound (h : n.HasLanded e w.model w .binding) (F : Follow)
    (hlegal : w.isLegal = true) :
    n.Restates (n.carryOut F (.bound e w)) := by
  cases hi : n.get? e w.model with
  | none => exact bound_refused F hi
  | some i =>
    have hrestates := bound_lands F hi hlegal
    rwa [h.landed_eq hi] at hrestates

end Node

end MeshNode
