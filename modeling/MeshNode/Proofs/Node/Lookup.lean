import Mathlib.Data.List.Basic
import MeshNode.Node.Transition
import MeshNode.Proofs.Timers.QueueOrder

/-! # Looking at a node

What can be seen of an instance and of the timers, and how the smallest changes of a node show in
it. The course of an instance is the part of it that requests and their progress are made of; the
requests that it took up are read off the log.
-/

namespace MeshNode

/-- The part of an instance that a change of its state runs through. -/
structure Course where
  present : Value
  target : Value
  remaining : Nat
  delay : Nat
  source : Source
  stepping : Stepping
  motion : Option Motion
  edgeResolved : Bool
  deriving DecidableEq

def Instance.course (i : Instance) : Course :=
  ⟨i.present, i.target, i.remaining, i.delay, i.source, i.stepping, i.motion, i.edgeResolved⟩

theorem Instance.phase_eq_idle_iff {i : Instance} :
    i.phase = .idle ↔ ¬ (0 < i.delay ∨ 0 < i.remaining) := by
  unfold phase
  split
  next hd => simp [hd]
  next hd =>
    split
    next hr => simp [hr]
    next hr => simp [hd, hr]

def LightMemory.range (memory : LightMemory) : Lightness × Lightness :=
  (memory.rangeMin, memory.rangeMax)

theorem LightMemory.range_noting (memory : LightMemory) (v : Value) :
    (memory.noting v).range = memory.range := by
  cases v with
  | lightness l =>
    rw [noting]
    split <;> rfl
  | _ => rfl

/-- The request that an effect took up for an instance, and its motion. -/
def Effect.requestFor? (element : UInt8) (model : Model) :
    Effect → Option (Request × Option Motion)
  | .requested r motion => if r.element = element ∧ r.model = model then some (r, motion) else none
  | _ => none

theorem Element.set_get (el : Element) (m : Model) : el.set m (el.get m) = el := by cases m <;> rfl

namespace Node

/-- The requests that an instance took up, latest first, each with its motion. -/
def requestsFor (n : Node) (element : UInt8) (model : Model) : List (Request × Option Motion) :=
  n.log.filterMap (Effect.requestFor? element model)

/-- The course of an instance, and the time at which its timer fires. -/
def watch (n : Node) (element : UInt8) (model : Model) : Option Course × Option Nat :=
  ((n.get? element model).map Instance.course, n.timers.deadline? (transitionTimer element model))

def awaited? (n : Node) (element : UInt8) (model : Model) : Option PendingReply :=
  (n.get? element model).bind Instance.pendingReply

def range? (n : Node) (element : UInt8) (model : Model) : Option (Lightness × Lightness) :=
  (n.get? element model).map fun i => i.light.range

def shape (n : Node) : List (PerModel Bool) := n.elements.map (·.map Option.isSome)

variable {n n' n'' : Node} {e e' : UInt8} {m m' : Model} {f g : Instance → Instance}

/-! ## Instances -/

theorem get?_modify_self : (n.modify e m f).get? e m = (n.get? e m).map f := by
  simp only [get?, instance?, modify, List.getElem?_modify]
  cases n.elements[e.toNat]? <;> simp

theorem get?_modify_of_ne (h : (e', m') ≠ (e, m)) :
    (n.modify e m f).get? e' m' = n.get? e' m' := by
  simp only [get?, instance?, modify, List.getElem?_modify]
  by_cases he : e = e'
  · subst he
    have hm : m' ≠ m := fun hm => h (by rw [hm])
    cases n.elements[e.toNat]? <;> simp [PerModel.get_set, hm]
  · have : e.toNat ≠ e'.toNat := fun ht => he (UInt8.toNat_inj.mp ht)
    cases n.elements[e'.toNat]? <;> simp [this]

theorem get?_modify_eq_some {i : Instance} (h : (n.modify e m f).get? e' m' = some i) :
    n.get? e' m' = some i ∨ (e' = e ∧ m' = m ∧ ∃ j, n.get? e m = some j ∧ f j = i) := by
  by_cases hx : (e', m') = (e, m)
  · obtain ⟨rfl, rfl⟩ := Prod.mk.injEq .. ▸ hx
    rw [get?_modify_self] at h
    exact Or.inr ⟨rfl, rfl, Option.map_eq_some_iff.mp h⟩
  · exact Or.inl (by rwa [get?_modify_of_ne hx] at h)

theorem range?_modify (hf : ∀ i, (f i).light.range = i.light.range) (e' : UInt8) (m' : Model) :
    (n.modify e m f).range? e' m' = n.range? e' m' := by
  by_cases hx : (e', m') = (e, m)
  · obtain ⟨rfl, rfl⟩ := Prod.mk.injEq .. ▸ hx
    rw [range?, get?_modify_self, Option.map_map]
    exact congrArg (Option.map · _) (funext hf)
  · rw [range?, get?_modify_of_ne hx]
    rfl

theorem modify_eq_self (h : ∀ i, n.get? e m = some i → f i = i) : n.modify e m f = n := by
  have hel : n.elements.modify e.toNat (fun el => el.set m ((el.get m).map f)) = n.elements := by
    apply List.ext_getElem?
    intro k
    rw [List.getElem?_modify]
    cases hk : n.elements[k]? with
    | none => rfl
    | some el =>
      simp only [Option.map_eq_map, Option.map_some, Option.some.injEq]
      split
      next heq =>
        subst heq
        have hget : n.get? e m = el.get m := by simp [get?, instance?, hk]
        have hsame : (el.get m).map f = el.get m := by
          cases hi : el.get m with
          | none => rfl
          | some i => exact congrArg some (h i (hget.trans hi))
        rw [hsame, Element.set_get]
      next => rfl
  rw [modify, hel]

theorem modify_of_absent (h : n.get? e m = none) : n.modify e m f = n :=
  modify_eq_self fun i hi => by cases h.symm.trans hi

theorem hosts_iff : n.hosts e m = true ↔ ∃ i, n.get? e m = some i := Option.isSome_iff_exists

theorem hosts_eq_shape :
    n.hosts e m = ((n.shape[e.toNat]?).map fun s => s.get m).getD false := by
  simp only [hosts, get?, instance?, shape, List.getElem?_map, Option.map_map]
  cases n.elements[e.toNat]? <;> simp

theorem shape_modify : (n.modify e m f).shape = n.shape := by
  apply List.ext_getElem?
  intro k
  simp only [shape, modify, List.getElem?_map, List.getElem?_modify]
  cases hk : n.elements[k]? with
  | none => rfl
  | some el =>
    simp only [Option.map_eq_map, Option.map_some, Option.some.injEq]
    split
    · cases m <;> simp [PerModel.map, PerModel.set, PerModel.get]
    · rfl

theorem hosts_congr (h : n'.shape = n.shape) (e : UInt8) (m : Model) :
    n'.hosts e m = n.hosts e m := by
  rw [hosts_eq_shape, hosts_eq_shape, h]

theorem mem_instances {i : Instance} (h : n.get? e m = some i) : (e, m, i) ∈ n.instances := by
  obtain ⟨el, hel, hi⟩ := Option.bind_eq_some_iff.mp h
  obtain ⟨hlt, rfl⟩ := List.getElem?_eq_some_iff.mp hel
  simp only [instances, List.mem_flatMap, Prod.exists, List.mem_map]
  refine ⟨_, e.toNat, List.mk_mem_zipIdx_iff_getElem?.mpr hel, m, i, ?_, by simp⟩
  exact List.mem_filterMap.mpr ⟨m, Model.mem_all m, by rw [hi]; rfl⟩

theorem length_instances_congr (h : n'.shape = n.shape) :
    n'.instances.length = n.instances.length := by
  have hcount (el : Element) :
      el.instances.length = Model.all.countP (el.map Option.isSome).get := by
    simp only [Element.instances, List.length_filterMap_eq_countP, Option.isSome_map]
    exact List.countP_congr fun m _ => by rw [PerModel.get_map]
  have hlen (n : Node) :
      n.instances.length = (n.shape.map fun s => Model.all.countP s.get).sum := by
    simp only [instances, List.length_flatMap, List.length_map, hcount, shape, List.map_map]
    rw [← List.zipIdx_map_fst 0 n.elements, List.map_map, List.zipIdx_map_fst]
    rfl
  rw [hlen, hlen, h]

/-! ## Effects that change nothing -/

/-- The second node is the first with some effects noted, none of them a request. -/
def Tells (n n' : Node) : Prop :=
  ∃ es, n' = { n with log := es ++ n.log } ∧ ∀ r motion, Effect.requested r motion ∉ es

theorem Tells.refl (n : Node) : n.Tells n := ⟨[], rfl, by simp⟩

theorem Tells.trans (h : n.Tells n') (h' : n'.Tells n'') : n.Tells n'' := by
  obtain ⟨es, rfl, hes⟩ := h
  obtain ⟨es', rfl, hes'⟩ := h'
  refine ⟨es' ++ es, by simp, fun r motion hr => ?_⟩
  rcases List.mem_append.mp hr with hr | hr
  · exact hes' r motion hr
  · exact hes r motion hr

theorem tells_note {x : Effect} (h : ∀ r motion, x ≠ .requested r motion) : n.Tells (n.note x) :=
  ⟨[x], rfl, fun r motion hr => h r motion (List.mem_singleton.mp hr).symm⟩

theorem tells_emit (n : Node) (ev : Event) : n.Tells (n.emit ev) := by
  unfold emit
  split
  · exact tells_note (by simp)
  · exact .refl n

theorem tells_handOver (n : Node) (out : Outbound) : n.Tells (n.handOver out) := by
  unfold handOver
  split
  · exact tells_note (by simp)
  · exact .refl n

theorem tells_save (n : Node) (e : UInt8) (m : Model) : n.Tells (n.save e m) := by
  unfold save
  split
  · split
    · exact tells_note (by simp)
    · exact .refl n
  · exact .refl n

theorem tells_sendStatus (n : Node) (e : UInt8) (m : Model) (dst appKey : UInt16)
    (unicast : Bool) : n.Tells (n.sendStatus e m dst appKey unicast) := by
  unfold sendStatus
  split
  · exact tells_handOver n _
  · exact .refl n

theorem tells_publish (n : Node) (e : UInt8) (m : Model) : n.Tells (n.publish e m) := by
  unfold publish
  split
  · exact tells_handOver n _
  · exact .refl n

theorem publish_of_absent (h : n.get? e m = none) : n.publish e m = n := by
  simp [publish, report?, h]

theorem publishPeriodically_fst (n : Node) (e : UInt8) (m : Model) :
    (n.publishPeriodically e m).1 = n.publish e m := by
  unfold publishPeriodically
  split
  · rfl
  next habsent => exact (publish_of_absent (by simpa [hosts] using habsent)).symm

theorem tells_announce (n : Node) (e : UInt8) (m : Model) : n.Tells (n.announce e m) := by
  unfold announce
  split
  · exact tells_emit n _
  · exact .refl n

end Node

end MeshNode
