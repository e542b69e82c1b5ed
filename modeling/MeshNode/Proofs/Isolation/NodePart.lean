import MeshNode.Proofs.Transition.RequestCourse
import MeshNode.Proofs.Node.Steps

/-! # Focus

A part of a node: some of its instances, with their timers and the effects that are about them.
What the node shows of an instance of the part, the part shows as well, and a small change of one
instance is the same change of the part, or none.
-/

namespace MeshNode

/-- Which instances belong to a part of a node. -/
abbrev Scope := UInt8 → Model → Bool

def Element.restrict (el : Element) (keep : Model → Bool) : Element where
  onOff := if keep .onOff then el.onOff else none
  level := if keep .level then el.level else none
  defaultTransition := if keep .defaultTransition then el.defaultTransition else none
  powerOnOff := if keep .powerOnOff then el.powerOnOff else none
  lightness := if keep .lightness then el.lightness else none

/-- The instance that an effect is about. The run of a rule is about no single one. -/
def Effect.subject? : Effect → Option (UInt8 × Model)
  | .heard _ event => some (event.element, event.model)
  | .saved image => some (image.element, image.model)
  | .out (.sent reply) => some (reply.element, reply.model)
  | .out (.published publication) => some (publication.element, publication.model)
  | .requested r _ => some (r.element, r.model)
  | .followed .. => none

def Effect.isWithin (keep : Scope) (x : Effect) : Bool := x.subject?.any fun (e, m) => keep e m

namespace Element

variable {el : Element} {keep : Model → Bool} {m : Model}

theorem get_restrict : (el.restrict keep).get m = if keep m then el.get m else none := by
  cases m <;> rfl

theorem restrict_set (i : Option Instance) :
    Element.restrict (el.set m i) keep = (el.restrict keep).set m (if keep m then i else none) := by
  cases m <;> rfl

theorem restrict_map (f : Instance → Instance) :
    Element.restrict (el.map (Option.map f)) keep = (el.restrict keep).map (Option.map f) := by
  have hmodel (b : Bool) (i : Option Instance) :
      (if b then i.map f else none) = (if b then i else none).map f := by cases b <;> rfl
  simp only [restrict, PerModel.map, hmodel]

end Element

namespace Timers

variable {a : Alarm} {q : List Alarm} {p : Alarm → Bool}

/-- In a sorted queue an alarm has the same place among some alarms as among all. -/
theorem filter_enqueue (h : q.Pairwise fun a b => a.deadline ≤ b.deadline) :
    (enqueue a q).filter p = if p a then enqueue a (q.filter p) else q.filter p := by
  induction q with
  | nil => cases hp : p a <;> simp [enqueue, hp]
  | cons b rest ih =>
    obtain ⟨hb, hr⟩ := List.pairwise_cons.mp h
    rw [enqueue]
    split
    next hle =>
      rw [List.filter_cons, ih hr, List.filter_cons]
      cases p a <;> cases p b <;> simp [enqueue, hle]
    next hlt =>
      -- All alarms from here on fire later than the new one.
      have hfirst (l : List Alarm) (hl : ∀ c ∈ l, a.deadline < c.deadline) :
          enqueue a l = a :: l := by
        cases l with
        | nil => rfl
        | cons c l =>
          have := hl c (by simp)
          rw [enqueue, if_neg (by omega)]
      have hlater : ∀ c ∈ (b :: rest).filter p, a.deadline < c.deadline := by
        intro c hc
        rcases List.mem_cons.mp (List.mem_filter.mp hc).1 with rfl | hc
        · omega
        · have := hb c hc
          omega
      rw [hfirst _ hlater, List.filter_cons]

end Timers

namespace Node

variable {n : Node} {keep : Scope} {e : UInt8} {m : Model} {f : Instance → Instance} {x : Effect}
  {timer : Timer} {w : Value} {t d : Nat} {s : Source} {i : Instance}

/-- The part of a node that has the instances of a scope, with their timers and effects. -/
def focus (n : Node) (keep : Scope) : Node :=
  { n with
    elements := n.elements.mapIdx fun k el => el.restrict (keep (UInt8.ofNat k))
    timers := { n.timers with
      queue := n.timers.queue.filter fun a => keep a.timer.element a.timer.model
      armings := n.timers.armings.filter fun a => keep a.timer.element a.timer.model }
    log := n.log.filter (·.isWithin keep) }

/-! ## Instances that are not there -/

section Absent

variable (h : n.get? e m = none)
include h

theorem display_of_absent : n.display e m w s = n := modify_of_absent h

theorem sendStatus_of_absent {dst appKey : UInt16} {unicast : Bool} :
    n.sendStatus e m dst appKey unicast = n := by simp [sendStatus, report?, h]

theorem save_of_absent : n.save e m = n := by simp [save, h]

theorem announce_of_absent : n.announce e m = n := by simp [announce, h]

theorem settle_of_absent : n.settle follow e m w s = n := by simp [settle, h]

theorem program_of_absent : n.program follow e m w t d s = n := by simp [program, h]

theorem start_of_absent {motion : Option Motion} : n.start follow e m w t d s motion = n := by
  simp [start, h]

end Absent

/-! ## Looking at a part -/

theorem get?_focus : (n.focus keep).get? e m = if keep e m then n.get? e m else none := by
  simp only [get?, instance?, focus, List.getElem?_mapIdx, UInt8.ofNat_toNat]
  cases n.elements[e.toNat]? with
  | none => simp
  | some el => exact Element.get_restrict

theorem get?_focus_of_keep (hk : keep e m = true) : (n.focus keep).get? e m = n.get? e m := by
  rw [get?_focus, if_pos hk]

theorem get?_focus_of_not_keep (hk : ¬ keep e m = true) : (n.focus keep).get? e m = none := by
  rw [get?_focus, if_neg hk]

theorem find?_focus (hk : keep timer.element timer.model = true) :
    (n.focus keep).timers.queue.find? (·.timer = timer) =
      n.timers.queue.find? (·.timer = timer) := by
  simp only [focus, List.find?_filter]
  congr 1
  funext a
  by_cases ha : a.timer = timer <;> simp [ha, hk]

theorem remaining?_focus (hk : keep timer.element timer.model = true) :
    (n.focus keep).timers.remaining? timer = n.timers.remaining? timer := by
  rw [Timers.remaining?, find?_focus hk]
  rfl

theorem deadline?_focus (hk : keep timer.element timer.model = true) :
    (n.focus keep).timers.deadline? timer = n.timers.deadline? timer := by
  rw [Timers.deadline?, find?_focus hk]
  rfl

theorem report?_focus (hk : keep e m = true) : (n.focus keep).report? e m = n.report? e m := by
  have hleft : (n.focus keep).timers.remaining? (transitionTimer e m) =
      n.timers.remaining? (transitionTimer e m) := remaining?_focus hk
  simp only [report?, get?_focus_of_keep hk, reportedTime, timeLeft, hleft]
  rfl

/-! ## The smallest changes -/

theorem focus_modify : (n.modify e m f).focus keep = (n.focus keep).modify e m f := by
  have hel : (n.elements.modify e.toNat fun el => el.set m ((el.get m).map f)).mapIdx
        (fun k el => el.restrict (keep (UInt8.ofNat k))) =
      (n.elements.mapIdx fun k el => el.restrict (keep (UInt8.ofNat k))).modify e.toNat fun el =>
        el.set m ((el.get m).map f) := by
    apply List.ext_getElem?
    intro k
    simp only [List.getElem?_mapIdx, List.getElem?_modify]
    cases n.elements[k]? with
    | none => rfl
    | some el =>
      simp only [Option.map_eq_map, Option.map_some, Option.some.injEq]
      split
      next heq =>
        subst heq
        rw [Element.restrict_set, Element.get_restrict]
        split <;> rfl
      next => rfl
  simp only [focus, modify, hel]

theorem focus_display : (n.display e m w s).focus keep = (n.focus keep).display e m w s :=
  focus_modify

theorem focus_note : (n.note x).focus keep =
    if x.isWithin keep then (n.focus keep).note x else n.focus keep := by
  simp only [focus, note, List.filter_cons]
  split <;> rfl

theorem focus_cancel : (n.cancel timer).focus keep = (n.focus keep).cancel timer := by
  simp only [focus, cancel, Timers.cancel, List.filter_filter, Bool.and_comm]

theorem cancel_focus_of_not_keep (hk : ¬ keep timer.element timer.model = true) :
    (n.focus keep).cancel timer = n.focus keep := by
  have hqueue : (n.focus keep).timers.queue.filter (·.timer ≠ timer) =
      (n.focus keep).timers.queue := by
    apply List.filter_eq_self.mpr
    intro a ha
    have hka := (List.mem_filter.mp ha).2
    simp only [ne_eq, decide_not, Bool.not_eq_eq_eq_not, Bool.not_true, decide_eq_false_iff_not]
    rintro rfl
    exact hk hka
  rw [cancel, Timers.cancel, hqueue]

theorem focus_arm (o : n.timers.Ordered) {after : Nat} : (n.arm timer after).focus keep =
    if keep timer.element timer.model then (n.focus keep).arm timer after else n.focus keep := by
  have harm : (n.arm timer after).focus keep =
      if keep timer.element timer.model then (n.focus keep).arm timer after
      else (n.focus keep).cancel timer := by
    simp only [focus, arm, cancel, Timers.arm, Timers.filter_enqueue (o.cancel timer).sorted,
      List.filter_cons]
    simp only [Timers.cancel, List.filter_filter, Bool.and_comm]
    split <;> rfl
  rw [harm]
  split
  · rfl
  · exact cancel_focus_of_not_keep ‹_›

theorem focus_emit {event : Event} : (n.emit event).focus keep =
    if keep event.element event.model then (n.focus keep).emit event else n.focus keep := by
  have hwithin (listener : String) :
      (Effect.heard listener event).isWithin keep = keep event.element event.model := rfl
  have hhearer : (n.focus keep).listeners.hearer? event = n.listeners.hearer? event := rfl
  rw [emit, emit, hhearer]
  split
  · rw [focus_note, hwithin]
  · rw [ite_self]

theorem focus_handOver {out : Outbound} : (n.handOver out).focus keep =
    if (Effect.out out).isWithin keep then (n.focus keep).handOver out else n.focus keep := by
  have hconnected : (n.focus keep).isConnected = n.isConnected := rfl
  rw [handOver, handOver, hconnected]
  split
  · rw [focus_note]
  · rw [ite_self]

/-! ## Reports -/

theorem focus_report {out : Report → Outbound}
    (hout : ∀ r, (Effect.out (out r)).subject? = some (e, m)) :
    (match n.report? e m with | some r => n.handOver (out r) | none => n).focus keep =
      match (n.focus keep).report? e m with
      | some r => (n.focus keep).handOver (out r)
      | none => n.focus keep := by
  have hwithin (r : Report) : (Effect.out (out r)).isWithin keep = keep e m := by
    rw [Effect.isWithin, hout]
    rfl
  by_cases hk : keep e m = true
  · rw [report?_focus hk]
    split
    · rw [focus_handOver, hwithin, if_pos hk]
    · rfl
  · have hnone : (n.focus keep).report? e m = none := by
      rw [report?, get?_focus_of_not_keep hk, Option.map_none]
    rw [hnone]
    split
    · rw [focus_handOver, hwithin, if_neg hk]
    · rfl

theorem focus_sendStatus {dst appKey : UInt16} {unicast : Bool} :
    (n.sendStatus e m dst appKey unicast).focus keep =
      (n.focus keep).sendStatus e m dst appKey unicast :=
  focus_report fun _ => rfl

theorem focus_publish : (n.publish e m).focus keep = (n.focus keep).publish e m :=
  focus_report fun _ => rfl

theorem focus_save : (n.save e m).focus keep = (n.focus keep).save e m := by
  by_cases hk : keep e m = true
  · rw [save, save, get?_focus_of_keep hk]
    split
    · split
      · rw [focus_note]
        exact if_pos hk
      · rfl
    · rfl
  · rw [save_of_absent (get?_focus_of_not_keep hk), save]
    split
    · split
      · rw [focus_note]
        exact if_neg hk
      · rfl
    · rfl

theorem focus_announce : (n.announce e m).focus keep = (n.focus keep).announce e m := by
  by_cases hk : keep e m = true
  · rw [announce, announce, get?_focus_of_keep hk]
    split
    · rw [focus_emit]
      exact if_pos hk
    · rfl
  · rw [announce_of_absent (get?_focus_of_not_keep hk), announce]
    split
    · rw [focus_emit]
      exact if_neg hk
    · rfl

end Node

end MeshNode
