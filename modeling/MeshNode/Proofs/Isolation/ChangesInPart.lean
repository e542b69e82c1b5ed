import MeshNode.Proofs.Isolation.NodePart
import MeshNode.Proofs.Node.Steps

/-! # Changes of state in a part of a node

In a node without bindings a change of state keeps to one instance: it is the same change of a part
that has the instance, and none of a part that has not. So is what a timer that fires brings about.
-/

namespace MeshNode.Node

variable {n n' : Node} {keep : Scope} {e : UInt8} {m : Model} {timer : Timer} {ts : Timers}
  {w : Value} {t d horizon : Nat} {s : Source} {i : Instance}

/-! ## Changes of state -/

theorem follow_of_isUnbound (hb : n.IsUnbound) (v : Value) : n.follow e m v = n := by
  apply follow_eq_self
  intro state _
  rw [BindingTable.matching, hb, List.filter_nil]

theorem passOn_of_isUnbound (hb : n.IsUnbound) : n.passOn follow e m w s = n := by
  rw [passOn, follow_of_isUnbound hb, ite_self]

theorem visit_of_isUnbound (hb : n.IsUnbound) : n.visit e m w s = n.display e m w s :=
  passOn_of_isUnbound hb

theorem settle_of_isUnbound (hb : n.IsUnbound) (hi : n.get? e m = some i) :
    n.settle follow e m w s = ((((n.modify e m fun i =>
      { i with
        remaining := 0
        delay := 0
        stepping := .none
        motion := none
        target := w
        edgeResolved := false }).display e m w s).publish e m).save e m).announce e m := by
  simp only [settle, hi]
  rw [passOn_of_isUnbound, ite_self]
  exact hb

theorem focus_settle (hb : n.IsUnbound) : (n.settle follow e m w s).focus keep =
    (n.focus keep).settle follow e m w s := by
  cases hi : n.get? e m with
  | none =>
    have hi' : (n.focus keep).get? e m = none := by rw [get?_focus, hi, ite_self]
    rw [settle_of_absent hi, settle_of_absent hi']
  | some i =>
    rw [settle_of_isUnbound hb hi, focus_announce, focus_save, focus_publish, focus_display,
      focus_modify]
    by_cases hk : keep e m = true
    · rw [settle_of_isUnbound (n := n.focus keep) hb ((get?_focus_of_keep hk).trans hi)]
    · have habsent := get?_focus_of_not_keep (n := n) hk
      rw [settle_of_absent habsent, modify_of_absent habsent, display_of_absent habsent,
        publish_of_absent habsent, save_of_absent habsent, announce_of_absent habsent]

/-- Show a value that is not to be waited for, with no binding to follow it. -/
def reveal (n : Node) (e : UInt8) (m : Model) (w : Value) (s : Source) : Node :=
  if w.isImmediate then
    if s.triggersBindings then
      (n.display e m w s).modify e m fun i => { i with edgeResolved := true }
    else n.display e m w s
  else n

theorem focus_reveal : (n.reveal e m w s).focus keep = (n.focus keep).reveal e m w s := by
  unfold reveal
  split
  · split
    · rw [focus_modify, focus_display]
    · rw [focus_display]
  · rfl

theorem reveal_of_absent (h : n.get? e m = none) : n.reveal e m w s = n := by
  rw [reveal, display_of_absent h, modify_of_absent h, ite_self, ite_self]

theorem embark_of_isUnbound (hb : n.IsUnbound) {b : Bool} :
    n.embark follow e m w t s b =
      ((n.arm (transitionTimer e m) (if b then n.config.stepInterval.toNat else t)).reveal
        e m w s).announce e m := by
  rw [embark, reveal]
  dsimp only
  congr 1
  split
  · split
    · rw [follow_of_isUnbound]
      exact hb
    · rfl
  · rfl

theorem focus_embark (hb : n.IsUnbound) (o : n.timers.Ordered) {b : Bool} :
    (n.embark follow e m w t s b).focus keep =
      if keep e m then (n.focus keep).embark follow e m w t s b else n.focus keep := by
  rw [embark_of_isUnbound hb, focus_announce, focus_reveal, focus_arm o]
  by_cases hk : keep e m = true
  · have hk' : keep (transitionTimer e m).element (transitionTimer e m).model = true := hk
    rw [embark_of_isUnbound (n := n.focus keep) hb, if_pos hk, if_pos hk']
    rfl
  · have hk' : ¬ keep (transitionTimer e m).element (transitionTimer e m).model = true := hk
    have habsent := get?_focus_of_not_keep (n := n) hk
    rw [if_neg hk, if_neg hk', reveal_of_absent habsent, announce_of_absent habsent]

theorem focus_program (hb : n.IsUnbound) (o : n.timers.Ordered) :
    (n.program follow e m w t d s).focus keep = (n.focus keep).program follow e m w t d s := by
  cases hi : n.get? e m with
  | none =>
    have hi' : (n.focus keep).get? e m = none := by rw [get?_focus, hi, ite_self]
    rw [program_of_absent hi, program_of_absent hi']
  | some i =>
    by_cases hk : keep e m = true
    · have hi' : (n.focus keep).get? e m = some i := (get?_focus_of_keep hk).trans hi
      have hk' : keep (transitionTimer e m).element (transitionTimer e m).model = true := hk
      simp only [program, hi, hi']
      split
      · rw [focus_announce, focus_arm, if_pos hk', focus_modify]
        exact o
      · split
        · rw [focus_embark, if_pos hk, focus_modify]
          · exact hb
          · exact o
        · rw [focus_settle, focus_cancel, focus_modify]
          exact hb
    · have habsent := get?_focus_of_not_keep (n := n) hk
      have hk' : ¬ keep (transitionTimer e m).element (transitionTimer e m).model = true := hk
      rw [program_of_absent habsent]
      simp only [program, hi]
      split
      · rw [focus_announce, focus_arm, if_neg hk', focus_modify, modify_of_absent habsent,
          announce_of_absent habsent]
        exact o
      · split
        · rw [focus_embark, if_neg hk, focus_modify, modify_of_absent habsent]
          · exact hb
          · exact o
        · rw [focus_settle, focus_cancel, focus_modify, modify_of_absent habsent]
          · rw [cancel_focus_of_not_keep hk', settle_of_absent habsent]
          · exact hb

theorem focus_start (hb : n.IsUnbound) (o : n.timers.Ordered) {motion : Option Motion} :
    (n.start follow e m w t d s motion).focus keep =
      (n.focus keep).start follow e m w t d s motion := by
  cases hi : n.get? e m with
  | none =>
    have hi' : (n.focus keep).get? e m = none := by rw [get?_focus, hi, ite_self]
    rw [start_of_absent hi, start_of_absent hi']
  | some i =>
    have hwithin (r : Request) (hr : r.element = e ∧ r.model = m) :
        (Effect.requested r motion).isWithin keep = keep e m := by
      rw [← hr.1, ← hr.2]
      rfl
    by_cases hk : keep e m = true
    · have hi' : (n.focus keep).get? e m = some i := (get?_focus_of_keep hk).trans hi
      simp only [start, hi, hi']
      rw [focus_program, focus_note, hwithin _ ⟨rfl, rfl⟩, if_pos hk, focus_modify]
      · rfl
      · exact hb
      · exact o
    · have habsent := get?_focus_of_not_keep (n := n) hk
      rw [start_of_absent habsent]
      simp only [start, hi]
      rw [focus_program, focus_note, hwithin _ ⟨rfl, rfl⟩, if_neg hk, focus_modify,
        modify_of_absent habsent, program_of_absent habsent]
      · exact hb
      · exact o

theorem check_focus (hk : keep e m = true) : (n.focus keep).check e m w = n.check e m w := by
  rw [check, check, hosts, hosts, get?_focus_of_keep hk]

theorem focus_carryOut (hb : n.IsUnbound) (o : n.timers.Ordered) {r : Request} :
    (n.carryOut follow r).focus keep =
      if keep r.element r.model then (n.focus keep).carryOut follow r else n.focus keep := by
  by_cases hk : keep r.element r.model = true
  · rw [if_pos hk, carryOut, carryOut, check_focus hk]
    split
    · exact focus_start hb o
    · rw [focus_emit]
      exact if_pos hk
  · rw [if_neg hk, carryOut]
    split
    · rw [focus_start hb o, start_of_absent (get?_focus_of_not_keep hk)]
    · rw [focus_emit]
      exact if_neg hk

/-! ## Timers that fire -/

theorem focus_visit (hb : n.IsUnbound) :
    (n.visit e m w s).focus keep = (n.focus keep).visit e m w s := by
  rw [visit_of_isUnbound hb, visit_of_isUnbound (n := n.focus keep) hb, focus_display]

theorem visit_isUnbound (hb : n.IsUnbound) : (n.visit e m w s).IsUnbound := by
  rw [visit_of_isUnbound hb]
  exact hb

theorem timers_visit (hb : n.IsUnbound) : (n.visit e m w s).timers = n.timers := by
  rw [visit_of_isUnbound hb]
  rfl

theorem focus_stepOn (hb : n.IsUnbound) (o : n.timers.Ordered) :
    (n.stepOn e m i).focus keep = (n.focus keep).stepOn e m i := by
  rw [stepOn, stepOn]
  have hvisit : ((n.modify e m fun i => { i with stepping := i.stepping.next }).visit e m
        (i.present.shift i.stepping.increment) i.source).focus keep =
      ((n.focus keep).modify e m fun i => { i with stepping := i.stepping.next }).visit e m
        (i.present.shift i.stepping.increment) i.source := by
    rw [focus_visit, focus_modify]
    exact hb
  have hconfig : (n.focus keep).config = n.config := rfl
  rw [hconfig]
  split
  · rw [focus_settle, hvisit]
    exact visit_isUnbound hb
  · rw [focus_publish, focus_program, hvisit]
    · exact visit_isUnbound hb
    · rwa [timers_visit]
      exact hb

theorem focus_moveOn (hb : n.IsUnbound) (o : n.timers.Ordered) {motion : Motion} :
    (n.moveOn e m i motion).focus keep = (n.focus keep).moveOn e m i motion := by
  rw [moveOn, moveOn]
  split
  · exact focus_settle hb
  · rw [focus_publish, focus_program, focus_visit hb]
    · exact visit_isUnbound hb
    · rwa [timers_visit hb]

theorem focus_endDelay (hb : n.IsUnbound) (o : n.timers.Ordered) :
    (n.endDelay e m i).focus keep = (n.focus keep).endDelay e m i := by
  let begin (i : Instance) : Instance := { i with delay := 0, pendingReply := none }
  have hprogram :
      ((n.modify e m begin).program follow e m i.target i.remaining 0 i.source).focus keep =
        ((n.focus keep).modify e m begin).program follow e m i.target i.remaining 0 i.source := by
    rw [focus_program, focus_modify]
    · exact hb
    · exact o
  rw [endDelay, endDelay]
  split
  · rw [focus_sendStatus, hprogram]
  · exact hprogram

section Absent

variable (hb : n.IsUnbound) (h : n.get? e m = none)
include hb h

theorem visit_of_absent : n.visit e m w s = n := by
  rw [visit_of_isUnbound hb, display_of_absent h]

theorem stepOn_of_absent : n.stepOn e m i = n := by
  rw [stepOn, modify_of_absent h, visit_of_absent hb h, settle_of_absent h, program_of_absent h,
    publish_of_absent h, ite_self]

theorem moveOn_of_absent {motion : Motion} : n.moveOn e m i motion = n := by
  rw [moveOn]
  split
  · exact settle_of_absent h
  · rw [visit_of_absent hb h]
    dsimp only
    rw [program_of_absent h, publish_of_absent h]

omit hb in
theorem endDelay_of_absent : n.endDelay e m i = n := by
  rw [endDelay, modify_of_absent h, program_of_absent h]
  split
  · rw [sendStatus_of_absent h]
  · rfl

end Absent

theorem focus_onTransition (hb : n.IsUnbound) (o : n.timers.Ordered) :
    (n.onTransition e m).focus keep = (n.focus keep).onTransition e m := by
  cases hi : n.get? e m with
  | none =>
    have hi' : (n.focus keep).get? e m = none := by rw [get?_focus, hi, ite_self]
    simp only [onTransition, hi, hi']
  | some i =>
    by_cases hk : keep e m = true
    · have hi' : (n.focus keep).get? e m = some i := (get?_focus_of_keep hk).trans hi
      simp only [onTransition, hi, hi']
      split
      · exact focus_endDelay hb o
      · split
        · split
          · exact focus_moveOn hb o
          · split
            · exact focus_stepOn hb o
            · exact focus_settle hb
        · rfl
    · have habsent := get?_focus_of_not_keep (n := n) hk
      have hb' : (n.focus keep).IsUnbound := hb
      simp only [onTransition, hi, habsent]
      split
      · rw [focus_endDelay hb o, endDelay_of_absent habsent]
      · split
        · split
          · rw [focus_moveOn hb o, moveOn_of_absent hb' habsent]
          · split
            · rw [focus_stepOn hb o, stepOn_of_absent hb' habsent]
            · rw [focus_settle hb, settle_of_absent habsent]
        · rfl

theorem focus_onTimer (hb : n.IsUnbound) (o : n.timers.Ordered) :
    (n.onTimer timer).focus keep = (n.focus keep).onTimer timer := by
  rw [onTimer, onTimer]
  split
  · exact focus_onTransition hb o
  · exact focus_modify

theorem onTimer_focus_of_not_keep (hk : ¬ keep timer.element timer.model = true) :
    (n.focus keep).onTimer timer = n.focus keep := by
  have habsent := get?_focus_of_not_keep (n := n) hk
  rw [onTimer]
  split
  · simp only [onTransition, habsent]
  · exact modify_of_absent habsent

theorem halt_focus_of_not_keep (hk : ¬ keep e m = true) :
    (n.focus keep).halt e m = n.focus keep := by
  have habsent := get?_focus_of_not_keep (n := n) hk
  have hcancel : (n.focus keep).cancel (transitionTimer e m) = n.focus keep :=
    cancel_focus_of_not_keep hk
  simp only [halt, hcancel, habsent]

theorem focus_halt (hb : n.IsUnbound) : (n.halt e m).focus keep = (n.focus keep).halt e m := by
  cases hi : (n.cancel (transitionTimer e m)).get? e m with
  | none =>
    have hi' : ((n.focus keep).cancel (transitionTimer e m)).get? e m = none := by
      rw [← focus_cancel, get?_focus, hi, ite_self]
    simp only [halt, hi, hi']
    exact focus_cancel
  | some i =>
    by_cases hk : keep e m = true
    · have hi' : ((n.focus keep).cancel (transitionTimer e m)).get? e m = some i := by
        rw [← focus_cancel, get?_focus_of_keep hk, hi]
      simp only [halt, hi, hi']
      split
      · rw [focus_modify, focus_cancel]
      · rw [focus_settle, focus_modify, focus_cancel]
        exact hb
    · have habsent := get?_focus_of_not_keep (n := n) hk
      have hcancel : (n.cancel (transitionTimer e m)).focus keep = n.focus keep :=
        focus_cancel.trans (cancel_focus_of_not_keep hk)
      rw [halt_focus_of_not_keep hk]
      simp only [halt, hi]
      split
      · rw [focus_modify, hcancel, modify_of_absent habsent]
      · rw [focus_settle, focus_modify, hcancel, modify_of_absent habsent, settle_of_absent habsent]
        exact hb

theorem IsUnbound.evolves (hb : n.IsUnbound) (he : n.Evolves n') : n'.IsUnbound := by
  rw [IsUnbound, he.bindings]
  exact hb

theorem IsUnbound.onTimer (hb : n.IsUnbound) (hn : n.Typed) : (n.onTimer timer).IsUnbound := by
  obtain ⟨e, m, rfl | rfl⟩ := timer_cases timer
  · exact hb.evolves (evolves_onTransition hn e m)
  · exact hb

end MeshNode.Node
