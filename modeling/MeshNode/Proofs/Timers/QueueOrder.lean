import Mathlib.Data.List.Nodup
import MeshNode.Timers

/-! # Timer queues in order

A queue in use is sorted by deadline and holds each timer at most once. Nothing in it is behind the
clock, unless a timer was armed for a time past the end of the clock. Every operation keeps it so,
and changes the deadline of no timer but the one that it is about.
-/

namespace MeshNode.Timers

def deadline? (t : Timers) (timer : Timer) : Option Nat :=
  (t.queue.find? (·.timer = timer)).map Alarm.deadline

/-- No timer was ever armed for a time past the end of the clock. -/
def WithinClock (t : Timers) : Prop := ∀ a ∈ t.armings, a.deadline < UInt64.size

instance (t : Timers) : Decidable t.WithinClock := inferInstanceAs (Decidable (∀ a ∈ t.armings, _))

/-- The timer was never armed for a time past the end of the clock. -/
def ArmedWithinClock (t : Timers) (timer : Timer) : Prop :=
  ∀ a ∈ t.armings, a.timer = timer → a.deadline < UInt64.size

/-- The queue is in firing order and holds each timer once, and no timer behind the clock that was
never armed past its end. -/
structure Ordered (t : Timers) : Prop where
  sorted : t.queue.Pairwise fun a b => a.deadline ≤ b.deadline
  nodup : (t.queue.map Alarm.timer).Nodup
  unwrapped : ∀ a ∈ t.queue, t.ArmedWithinClock a.timer → t.now ≤ a.deadline

variable {t t' : Timers} {a b : Alarm} {q : List Alarm} {timer other : Timer} {horizon : Nat}

/-! ## The end of the clock -/

theorem onClock_le (time : Nat) : onClock time ≤ time := Nat.mod_le ..

theorem onClock_of_lt {time : Nat} (h : time < UInt64.size) : onClock time = time :=
  Nat.mod_eq_of_lt h

theorem WithinClock.armedWithinClock (h : t.WithinClock) (timer : Timer) :
    t.ArmedWithinClock timer :=
  fun a ha _ => h a ha

theorem ArmedWithinClock.of_suffix (h : t'.ArmedWithinClock timer) (hs : t.armings <:+ t'.armings) :
    t.ArmedWithinClock timer :=
  fun a ha => h a (hs.mem ha)

theorem Ordered.ahead (o : t.Ordered) (hin : t.WithinClock) : ∀ a ∈ t.queue, t.now ≤ a.deadline :=
  fun a ha => o.unwrapped a ha (hin.armedWithinClock a.timer)

theorem WithinClock.of_suffix (h : t'.WithinClock) (hs : t.armings <:+ t'.armings) :
    t.WithinClock :=
  fun a ha => h a (hs.mem ha)

/-- As long as a timer is not armed past the end of the clock, it fires when it was asked to. -/
theorem ArmedWithinClock.onClock_armed {after : Nat}
    (h : (t.arm timer after).ArmedWithinClock timer) :
    onClock (t.now + after) = t.now + after :=
  onClock_of_lt (h ⟨timer, t.now + after⟩ List.mem_cons_self rfl)

theorem WithinClock.onClock_armed {after : Nat} (h : (t.arm timer after).WithinClock) :
    onClock (t.now + after) = t.now + after :=
  (h.armedWithinClock timer).onClock_armed

theorem armings_arm {after : Nat} : t.armings <:+ (t.arm timer after).armings :=
  List.suffix_cons ..

/-! ## Placing an alarm -/

theorem perm_enqueue (a : Alarm) (q : List Alarm) : (enqueue a q).Perm (a :: q) := by
  induction q with
  | nil => exact .refl _
  | cons b rest ih =>
    rw [enqueue]
    split
    · exact (ih.cons b).trans (.swap a b rest)
    · exact .refl _

@[simp] theorem mem_enqueue : b ∈ enqueue a q ↔ b = a ∨ b ∈ q := by
  rw [(perm_enqueue a q).mem_iff, List.mem_cons]

theorem sorted_enqueue (h : q.Pairwise fun a b => a.deadline ≤ b.deadline) :
    (enqueue a q).Pairwise fun a b => a.deadline ≤ b.deadline := by
  induction q with
  | nil => exact List.pairwise_singleton _ _
  | cons b rest ih =>
    obtain ⟨hb, hr⟩ := List.pairwise_cons.mp h
    rw [enqueue]
    split
    next hle =>
      refine List.pairwise_cons.mpr ⟨fun c hc => ?_, ih hr⟩
      rcases mem_enqueue.mp hc with rfl | hc
      · exact hle
      · exact hb c hc
    next hlt =>
      refine List.pairwise_cons.mpr ⟨fun c hc => ?_, h⟩
      rcases List.mem_cons.mp hc with rfl | hc
      · omega
      · have := hb c hc
        omega

theorem find?_enqueue_of_false {p : Alarm → Bool} (h : p a = false) :
    (enqueue a q).find? p = q.find? p := by
  induction q with
  | nil => simp [enqueue, h]
  | cons b rest ih =>
    rw [enqueue]
    split <;> simp [List.find?_cons, h, ih]

theorem find?_enqueue_of_true {p : Alarm → Bool} (h : p a = true) (hq : ∀ b ∈ q, p b = false) :
    (enqueue a q).find? p = some a := by
  induction q with
  | nil => simp [enqueue, h]
  | cons b rest ih =>
    have hb := hq b (by simp)
    have := ih fun c hc => hq c (by simp [hc])
    rw [enqueue]
    split <;> simp [h, hb, this]

/-! ## Deadlines -/

theorem isArmed_eq : t.isArmed timer = (t.deadline? timer).isSome := by
  rw [Bool.eq_iff_iff, isArmed, deadline?, Option.isSome_map, List.find?_isSome, List.any_eq_true]

theorem remaining?_eq : t.remaining? timer = (t.deadline? timer).map (· - t.now) := by
  simp [remaining?, deadline?, Function.comp_def]

theorem deadline?_eq_none_iff :
    t.deadline? timer = none ↔ ∀ a ∈ t.queue, a.timer ≠ timer := by
  simp [deadline?, List.find?_eq_none]

theorem mem_of_deadline? {d : Nat} (h : t.deadline? timer = some d) : ⟨timer, d⟩ ∈ t.queue := by
  obtain ⟨a, ha, rfl⟩ := Option.map_eq_some_iff.mp h
  obtain rfl : a.timer = timer := by simpa using List.find?_some ha
  exact List.mem_of_find?_eq_some ha

@[simp] theorem deadline?_cancel_self : (t.cancel timer).deadline? timer = none := by
  simp [deadline?_eq_none_iff, cancel]

theorem deadline?_cancel_of_ne (h : other ≠ timer) :
    (t.cancel timer).deadline? other = t.deadline? other := by
  simp only [deadline?, cancel, List.find?_filter]
  congr 2
  funext a
  by_cases ha : a.timer = other <;> simp [ha, h]

@[simp] theorem deadline?_arm_self {after : Nat} :
    (t.arm timer after).deadline? timer = some (onClock (t.now + after)) := by
  simp only [deadline?, arm]
  rw [find?_enqueue_of_true (by simp) (by simp [cancel])]
  rfl

theorem deadline?_arm_of_ne {after : Nat} (h : other ≠ timer) :
    (t.arm timer after).deadline? other = t.deadline? other := by
  rw [← deadline?_cancel_of_ne (t := t) h]
  simp only [deadline?, arm]
  rw [find?_enqueue_of_false (by simpa using Ne.symm h)]

theorem mem_cancel : a ∈ (t.cancel timer).queue ↔ a ∈ t.queue ∧ a.timer ≠ timer := by
  simp [cancel]

theorem mem_arm {after : Nat} :
    a ∈ (t.arm timer after).queue ↔
      a = ⟨timer, onClock (t.now + after)⟩ ∨ a ∈ t.queue ∧ a.timer ≠ timer := by
  rw [arm, mem_enqueue, mem_cancel]

/-! ## Operations keep the order -/

theorem ordered_startingAt (now : Nat) : (startingAt now).Ordered :=
  ⟨.nil, .nil, by simp [startingAt]⟩

theorem Ordered.cancel (o : t.Ordered) (timer : Timer) : (t.cancel timer).Ordered where
  sorted := o.sorted.filter _
  nodup := (List.filter_sublist.map _).nodup o.nodup
  unwrapped a ha := o.unwrapped a (mem_cancel.mp ha).1

theorem Ordered.arm (o : t.Ordered) (timer : Timer) (after : Nat) :
    (t.arm timer after).Ordered where
  sorted := sorted_enqueue (o.cancel timer).sorted
  nodup := by
    apply ((perm_enqueue _ _).map Alarm.timer).nodup_iff.mpr
    refine List.nodup_cons.mpr ⟨?_, (o.cancel timer).nodup⟩
    simp [Timers.cancel]
  unwrapped a ha h := by
    rcases mem_arm.mp ha with rfl | ⟨ha, -⟩
    · exact h.onClock_armed.symm ▸ Nat.le_add_right ..
    · exact o.unwrapped a ha (h.of_suffix armings_arm)

/-! ## Taking out the next timer -/

theorem pop?_eq_none_iff (o : t.Ordered) :
    t.pop? horizon = none ↔ ∀ a ∈ t.queue, horizon < a.deadline := by
  unfold pop?
  split
  next h => simp [h]
  next b rest h =>
    have hs := o.sorted
    rw [h] at hs
    have hb := (List.pairwise_cons.mp hs).1
    rw [h]
    split
    next hle => simpa using fun hlt : horizon < b.deadline => absurd hle (by omega)
    next hlt =>
      simp only [List.mem_cons, forall_eq_or_imp, true_iff]
      exact ⟨by omega, fun c hc => by have := hb c hc; omega⟩

/-- The timer taken out is the first of the queue, and the clock goes to its deadline, never
backwards. -/
theorem pop?_eq_some (h : t.pop? horizon = some (timer, t')) :
    ∃ d, t.queue = ⟨timer, d⟩ :: t'.queue ∧ d ≤ horizon ∧ t'.now = max t.now d ∧
      t'.armings = t.armings := by
  unfold Timers.pop? at h
  split at h
  next => simp at h
  next a rest hq =>
    split at h
    next hle =>
      obtain ⟨rfl, rfl⟩ : a.timer = timer ∧ _ = t' := by simpa using h
      exact ⟨a.deadline, hq, hle, rfl, rfl⟩
    next => simp at h

theorem armings_popped (h : t.pop? horizon = some (timer, t')) : t'.armings = t.armings := by
  obtain ⟨-, -, -, -, harmings⟩ := pop?_eq_some h
  exact harmings

theorem now_le_popped (h : t.pop? horizon = some (timer, t')) : t.now ≤ t'.now := by
  obtain ⟨d, -, -, hnow, -⟩ := pop?_eq_some h
  exact hnow ▸ Nat.le_max_left ..

theorem Ordered.pop? (o : t.Ordered) (hin : t.WithinClock)
    (h : t.pop? horizon = some (timer, t')) :
    t.queue = ⟨timer, t'.now⟩ :: t'.queue ∧ t.now ≤ t'.now ∧ t'.now ≤ horizon := by
  obtain ⟨d, hq, hle, hnow, -⟩ := pop?_eq_some h
  have hd : t.now ≤ d := o.ahead hin ⟨timer, d⟩ (by simp [hq])
  obtain rfl : t'.now = d := hnow.trans (Nat.max_eq_right hd)
  exact ⟨hq, hd, hle⟩

theorem Ordered.of_pop? (o : t.Ordered) (h : t.pop? horizon = some (timer, t')) : t'.Ordered := by
  obtain ⟨d, hq, -, hnow, harmings⟩ := pop?_eq_some h
  have hs := o.sorted
  have hn := o.nodup
  rw [hq] at hs
  rw [hq, List.map_cons] at hn
  refine ⟨(List.pairwise_cons.mp hs).2, (List.nodup_cons.mp hn).2, fun a ha hfits => ?_⟩
  rw [hnow]
  exact Nat.max_le.mpr
    ⟨o.unwrapped a (by simp [hq, ha]) (hfits.of_suffix (harmings ▸ List.suffix_rfl)),
    (List.pairwise_cons.mp hs).1 a ha⟩

theorem Ordered.deadline?_popped_self (o : t.Ordered) (h : t.pop? horizon = some (timer, t')) :
    t'.deadline? timer = none := by
  obtain ⟨d, hq, -⟩ := pop?_eq_some h
  have hn := o.nodup
  rw [hq, List.map_cons] at hn
  refine deadline?_eq_none_iff.mpr fun a ha hat => ?_
  exact (List.nodup_cons.mp hn).1 (List.mem_map.mpr ⟨a, ha, hat⟩)

theorem deadline?_popped_le (h : t.pop? horizon = some (timer, t')) :
    ∃ d, t.deadline? timer = some d ∧ d ≤ t'.now := by
  obtain ⟨d, hq, -, hnow, -⟩ := pop?_eq_some h
  exact ⟨d, by simp [deadline?, hq], hnow ▸ Nat.le_max_right ..⟩

theorem Ordered.deadline?_popped (o : t.Ordered) (hin : t.WithinClock)
    (h : t.pop? horizon = some (timer, t')) : t.deadline? timer = some t'.now := by
  simp [deadline?, (o.pop? hin h).1]

theorem deadline?_pop?_of_ne (h : t.pop? horizon = some (timer, t')) (hne : other ≠ timer) :
    t'.deadline? other = t.deadline? other := by
  obtain ⟨d, hq, -⟩ := pop?_eq_some h
  simp [deadline?, hq, Ne.symm hne]

theorem Ordered.settle (o : t.Ordered) (h : t.pop? horizon = none) :
    (t.settle horizon).Ordered where
  sorted := o.sorted
  nodup := o.nodup
  unwrapped a ha hfits :=
    Nat.max_le.mpr ⟨o.unwrapped a ha hfits, Nat.le_of_lt ((pop?_eq_none_iff o).mp h a ha)⟩

end MeshNode.Timers
