import Mathlib.Algebra.Order.BigOperators.Group.List
import Mathlib.Algebra.Order.Group.Nat
import Mathlib.Data.List.Induction
import Mathlib.Data.List.Perm.Subperm
import MeshNode.Proofs.Transition.TimerAgreement
import MeshNode.Proofs.Isolation.ChangesInPart
import MeshNode.Proofs.Clock.SplitAdvance

/-! # Without bindings every change comes to an end

As long as nothing is asked of a node without bindings, each of its changes ends after a number of
firings that is known beforehand, wherever the clock stands: a transition after its steps, and a
move at the end of the range. So the loop that moves the clock always comes to an end, even where
timers are armed past the end of the clock.
-/

namespace MeshNode

namespace Course

variable {c : Course} {m : Model} {motion : Motion} {w : Value} {t k : Nat} {s : Source}
  {d d? : Option Nat}

/-- A bound on the interim values that are left. -/
def interims (c : Course) : Nat :=
  match c.motion with
  | some _ => (c.target.position?.getD 0 - c.present.position?.getD 0).natAbs
  | none => c.stepping.steps

/-- A bound on the firings that take the course to its end. -/
def firings (c : Course) : Nat := (if 0 < c.delay then 1 else 0) + c.interims + 1

theorem toInt_clamp (p : Int) : (Level.clamp p).toInt = max (-32768) (min p 32767) :=
  Int16.toInt_ofInt_of_le (by omega) (by omega)

theorem interims_moved (hm : c.motion = some motion) (hlead : motion.LeadsTo c.target)
    (hp : c.present.model = .level) (hne : c.present.shift motion.step ≠ c.target) :
    { c with present := c.present.shift motion.step : Course }.interims < c.interims := by
  obtain ⟨l, hl⟩ : ∃ l, c.present = .level l := by
    cases hc : c.present <;> rw [hc] at hp <;> cases hp
    exact ⟨_, rfl⟩
  have hshift : c.present.shift motion.step = .level (.clamp (l.toInt + motion.step)) := by
    rw [hl]
    rfl
  have hlo := l.le_toInt
  have hhi := l.toInt_lt
  have hclamp := toInt_clamp (l.toInt + motion.step)
  rw [hshift] at hne ⊢
  simp only [interims, hm, hl]
  rcases hlead with ⟨hpos, htarget⟩ | ⟨hneg, htarget⟩
  all_goals
    rw [htarget] at hne ⊢
    have hends := fun heq => hne (congrArg Value.level (Int16.toInt_inj.mp heq))
    simp only [Value.position?, Option.getD_some]
    rw [hclamp] at hends ⊢
  · have hends : ¬ max (-32768) (min (l.toInt + motion.step) 32767) = 32767 := hends
    change (32767 - _ : Int).natAbs < (32767 - _ : Int).natAbs
    omega
  · have hends : ¬ max (-32768) (min (l.toInt + motion.step) 32767) = -32768 := hends
    change (-32768 - _ : Int).natAbs < (-32768 - _ : Int).natAbs
    omega

theorem steps_next_lt {s : Stepping} (h : s.isActive = true) : s.next.steps < s.steps := by
  have hpos : 0 < s.steps := of_decide_eq_true h
  simp only [Stepping.next]
  split <;> omega

theorem interims_stepped (hm : c.motion = none) (h : c.stepping.isActive = true) :
    c.stepped.interims < c.interims := by
  simp only [interims, stepped, hm]
  exact steps_next_lt h

/-- How often the timer of an instance fires at most, as its course and the deadline stand. -/
def due : Option Course × Option Nat → Nat
  | (some c, some _) => c.firings
  | _ => 0

/-- Once a request without a delay is entered, the interim values that are left and the end are to
come. -/
theorem due_enter_le (hm : ∀ motion, c.motion = some motion → motion.LeadsTo c.target)
    (hd : d.isSome = (c.enterTime? k t 0).isSome) :
    due (some (c.enter c.target t 0 s), d) ≤ c.interims + 1 := by
  unfold enter enterTime? at *
  dsimp only at *
  rw [if_neg (Nat.lt_irrefl 0)] at hd ⊢
  split
  next ht =>
    obtain ⟨x, rfl⟩ : ∃ x, d = some x := by
      rw [if_pos ht] at hd
      exact Option.isSome_iff_exists.mp hd
    simp only [due, firings]
    split
    next himm =>
      -- What is shown at once is no level, so nothing moves there.
      cases hmotion : c.motion with
      | none => simp [interims, hmotion]
      | some motion =>
        rcases hm motion hmotion with ⟨-, htarget⟩ | ⟨-, htarget⟩ <;>
          rw [htarget] at himm <;> cases himm
    next => simp [interims]
  next ht =>
    obtain rfl : d = none := by simpa [ht] using hd
    exact Nat.zero_le _

end Course

namespace Node

variable {n n' n₁ : Node} {e e' : UInt8} {m m' : Model} {i : Instance} {c : Course} {k : Nat}
  {timer : Timer} {ts : Timers} {horizon : Nat} {s : Source} {w : Value} {d? : Option Nat}

/-! ## The change of one instance -/

theorem isAftermath_still :
    IsAftermath m fun n n' => n.IsUnbound → ∀ e' m', n'.watch e' m' = n.watch e' m' where
  refl _ _ _ _ := rfl
  tells h ht hb e' m' := (ht.watch e' m').trans (h hb e' m')
  mark {n n'} h e hb e' m' := by
    by_cases hx : (e', m') = (e, m)
    · obtain ⟨rfl, rfl⟩ := Prod.mk.injEq .. ▸ hx
      have hsame := h hb e' m'
      rw [watch_mark, watch_mark, hsame]
    · have hsame (n : Node) : (n.mark e m).watch e' m' = n.watch e' m' := watch_modify_of_ne hx
      rw [hsame, hsame]
      exact h hb e' m'

theorem still_follow (n : Node) (e : UInt8) (m : Model) (v : Value) :
    n.IsUnbound → ∀ e' m', (n.follow e m v).watch e' m' = n.watch e' m' := by
  intro hb e' m'
  rw [follow_of_isUnbound hb]

theorem OnCourse.due_eq (h : n.OnCourse e m c d?) :
    ∃ d, d.isSome = d?.isSome ∧ n.watch e m = (some c, d) :=
  ⟨(n.watch e m).2, h.armed, Prod.ext h.course rfl⟩

theorem Writes.isUnbound {new : List (Request × Option Motion)}
    (hw : n.Writes n₁ e m new c d?) (hb : n.IsUnbound) : n₁.IsUnbound := by
  rw [IsUnbound, hw.bindings]
  exact hb

theorem due_settle (hb : n.IsUnbound) (hi : n.get? e m = some i)
    (hd : n.timers.deadline? (transitionTimer e m) = none) :
    Course.due ((n.settle follow e m w s).watch e m) = 0 := by
  obtain ⟨n₁, hw, hR⟩ := settle_writes (w := w) (s := s) isAftermath_still
    (fun _ _ n => still_follow n e m _) hi
  rw [hd] at hw
  rw [hR (hw.isUnbound hb), hw.onCourse.watch_of_none]
  rfl

theorem due_program_le {t : Nat} (hb : n.IsUnbound) (hi : n.get? e m = some i)
    (hm : ∀ motion, i.motion = some motion → motion.LeadsTo i.target) :
    Course.due ((n.program follow e m i.target t 0 s).watch e m) ≤ i.course.interims + 1 := by
  obtain ⟨n₁, hw, hR⟩ := program_writes (w := i.target) (t := t) (d := 0) (s := s)
    isAftermath_still (fun _ _ n => still_follow n e m _) hi
  obtain ⟨d, hd, hwatch⟩ := hw.onCourse.due_eq
  rw [hR (hw.isUnbound hb), hwatch]
  exact Course.due_enter_le hm (hd.trans (Option.isSome_map ..))

section Firing

variable (hb : n.IsUnbound) (hi : n.get? e m = some i)
  (hd : n.timers.deadline? (transitionTimer e m) = none) (hc : i.course.IsConsistent k d?)
include hb hi hc

theorem due_endDelay_le : Course.due ((n.endDelay e m i).watch e m) ≤ i.course.interims + 1 := by
  obtain ⟨n₁, hw, hR⟩ := endDelay_writes isAftermath_still (fun _ n => still_follow n e m _) hi
  obtain ⟨d, hd, hwatch⟩ := hw.onCourse.due_eq
  rw [hR (hw.isUnbound hb), hwatch]
  exact Course.due_enter_le hc.motion (hd.trans (Option.isSome_map ..))

include hd

theorem due_moved_le {motion : Motion} (ht : i.Typed m) (hm : i.motion = some motion)
    (hne : i.present.shift motion.step ≠ i.target) :
    Course.due (((n.moved e m i motion).program follow e m i.target motion.interval 0
      i.source).watch e m) ≤ i.course.interims := by
  obtain ⟨n₁, hw, hR⟩ := visit_writes (v := i.present.shift motion.step) (s := i.source)
    isAftermath_still (fun _ n => still_follow n e m _) hi
  have hsame := hR (hw.isUnbound hb) e m
  rw [hd] at hw
  obtain ⟨j, hj, hjc, -⟩ := watch_eq_some (hsame.trans hw.onCourse.watch_of_none)
  have htarget : i.target = j.target := (congrArg Course.target hjc).symm
  have hmotion : j.motion = i.motion := congrArg Course.motion hjc
  have hlt := Course.interims_moved (c := i.course) hm (hc.motion motion hm)
    (ht.present.trans (ht.motion (Option.isSome_of_eq_some hm))) hne
  have hle := due_program_le (n := n.moved e m i motion) (t := motion.interval) (s := i.source)
    (visit_isUnbound hb) hj fun motion' h => htarget ▸ hc.motion motion' (hmotion.symm.trans h)
  rw [hjc, ← htarget] at hle
  exact hle.trans (Nat.succ_le_of_lt hlt)

theorem due_stepOn_le (hm : i.motion = none) (ha : i.stepping.isActive = true) :
    Course.due ((n.stepOn e m i).watch e m) ≤ i.course.interims := by
  obtain ⟨n₁, hw, hR⟩ := stepped_writes isAftermath_still (fun _ n v => still_follow n e m v) hi
  have hsame := hR (hw.isUnbound hb) e m
  rw [hd] at hw
  obtain ⟨j, hj, hjc, hjd⟩ := watch_eq_some (hsame.trans hw.onCourse.watch_of_none)
  have hb' : (n.stepped e m i).IsUnbound := visit_isUnbound hb
  have htarget : i.target = j.target := (congrArg Course.target hjc).symm
  have hmotion : j.motion = i.motion := congrArg Course.motion hjc
  have hlt := Course.interims_stepped (c := i.course) hm ha
  rw [stepOn_eq]
  split
  · rw [due_settle hb' hj hjd]
    exact Nat.zero_le _
  · rw [(tells_publish _ e m).watch]
    have hle := due_program_le (t := i.remaining - n.config.stepInterval.toNat) (s := i.source)
      hb' hj fun motion' h => htarget ▸ hc.motion motion' (hmotion.symm.trans h)
    rw [hjc, ← htarget] at hle
    exact hle.trans (Nat.succ_le_of_lt hlt)

/-- Whenever its timer fires, a change comes nearer to its end. -/
theorem due_onTransition_lt (ht : i.Typed m) :
    Course.due ((n.onTransition e m).watch e m) < i.course.firings := by
  have h := n.onward e m
  generalize n.onTransition e m = n' at h ⊢
  cases h with
  | absent habsent => cases hi.symm.trans habsent
  | idle =>
    rw [watch_of_get? hi, hd]
    exact Nat.succ_pos _
  | @begin j hj _ hdelay =>
    obtain rfl := Option.some.inj (hi.symm.trans hj)
    have hle := due_endDelay_le hb hi hc
    have hdelay : 0 < i.course.delay := hdelay
    rw [Course.firings, if_pos hdelay]
    omega
  | @arrive j hj =>
    rw [due_settle hb hj hd]
    exact Nat.succ_pos _
  | @move j motion hj hm hmid =>
    obtain rfl := Option.some.inj (hi.symm.trans hj)
    have hne : i.present.shift motion.step ≠ i.target := fun heq => by
      simp [interim?, hi, hm, heq] at hmid
    have hle := due_moved_le hb hi hd hc ht hm hne
    rw [(tells_publish _ e m).watch, Course.firings]
    omega
  | @step j hj hm ha =>
    obtain rfl := Option.some.inj (hi.symm.trans hj)
    have hle := due_stepOn_le hb hi hd hc hm ha
    rw [Course.firings]
    omega

end Firing

/-! ## All timers -/

def places : List (UInt8 × Model) := (List.range UInt8.size).flatMap fun k =>
  Model.all.map (UInt8.ofNat k, ·)

theorem mem_places (e : UInt8) (m : Model) : (e, m) ∈ places := by
  refine List.mem_flatMap.mpr ⟨e.toNat, List.mem_range.mpr e.toNat_lt, ?_⟩
  exact List.mem_map.mpr ⟨m, Model.mem_all m, by rw [UInt8.ofNat_toNat]⟩

def dueAt (n : Node) (e : UInt8) (m : Model) : Nat :=
  (if n.timers.isArmed (transactionTimer e m) then 1 else 0) + Course.due (n.watch e m)

/-- How often the timers of a node fire at most, unless something is asked of it. -/
def rank (n : Node) : Nat := (places.map fun (e, m) => n.dueAt e m).sum

theorem dueAt_congr (ht : n'.timers.deadline? (transactionTimer e m) =
    n.timers.deadline? (transactionTimer e m)) (hw : n'.watch e m = n.watch e m) :
    n'.dueAt e m = n.dueAt e m := by
  rw [dueAt, dueAt, Timers.isArmed_eq, Timers.isArmed_eq, ht, hw]

theorem watch_onTimer_of_ne (hb : n.IsUnbound) (o : n.timers.Ordered)
    (hx : (e, m) ≠ (timer.element, timer.model)) : (n.onTimer timer).watch e m = n.watch e m := by
  let keep : Scope := fun e' m' => e' = e && m' = m
  have hk : keep e m = true := by simp [keep]
  have hne : ¬ keep timer.element timer.model = true := by
    rintro hkeep
    simp only [keep, Bool.and_eq_true, decide_eq_true_eq] at hkeep
    exact hx (Prod.ext hkeep.1.symm hkeep.2.symm)
  have hwatch (n : Node) : (n.focus keep).watch e m = n.watch e m := by
    have hd : (n.focus keep).timers.deadline? (transitionTimer e m) =
        n.timers.deadline? (transitionTimer e m) := deadline?_focus hk
    rw [watch, watch, get?_focus_of_keep hk, hd]
  rw [← hwatch, focus_onTimer hb o, onTimer_focus_of_not_keep hne, hwatch]

theorem expiry_onTimer (hn : n.Typed) (timer : Timer) (e : UInt8) (m : Model) :
    (n.onTimer timer).timers.deadline? (transactionTimer e m) =
      n.timers.deadline? (transactionTimer e m) := by
  obtain ⟨e', m', rfl | rfl⟩ := timer_cases timer
  · exact (evolves_onTransition hn e' m').expiry e m
  · rfl

section Popped

variable (hs : n.Steady) (h : n.Sound) (hb : n.IsUnbound)
  (hp : n.timers.pop? horizon = some (timer, ts))
include hs h hb hp

omit hs in
theorem dueAt_onTimer_of_ne (hx : (e, m) ≠ (timer.element, timer.model)) :
    (({ n with timers := ts } : Node).onTimer timer).dueAt e m = n.dueAt e m := by
  have hpopped := h.toSane.popped hp
  have hne (purpose : Purpose) : (⟨e, m, purpose⟩ : Timer) ≠ timer := by
    rintro rfl
    exact hx rfl
  apply dueAt_congr
  · rw [expiry_onTimer hpopped.typed]
    exact Timers.deadline?_pop?_of_ne hp (hne .transaction)
  · rw [watch_onTimer_of_ne (n := { n with timers := ts }) hb hpopped.ordered hx]
    exact watch_popped hp (hne .transition)

theorem dueAt_onTimer_lt :
    (({ n with timers := ts } : Node).onTimer timer).dueAt timer.element timer.model <
      n.dueAt timer.element timer.model := by
  have hpopped := h.toSane.popped hp
  obtain ⟨d, hd, -⟩ := Timers.deadline?_popped_le hp
  have hgone := h.ordered.deadline?_popped_self hp
  obtain ⟨i, hi⟩ := hosts_iff.mp (h.hosted _ (Timers.mem_of_deadline? hd))
  obtain ⟨e, m, rfl | rfl⟩ := timer_cases timer
  · have hi : n.get? e m = some i := hi
    have hwatch : n.watch e m = (some i.course, some d) := (watch_of_get? hi).trans (by rw [hd])
    -- The timer of a change brings it nearer to its end and leaves the remembered transaction
    -- alone.
    have hlt := due_onTransition_lt (n := { n with timers := ts }) hb hi hgone
      (hs.consistent e m _ _ hwatch) (h.typed e m i hi)
    have hsame : (({ n with timers := ts } : Node).onTransition e m).timers.deadline?
        (transactionTimer e m) = n.timers.deadline? (transactionTimer e m) :=
      (expiry_onTimer hpopped.typed (transitionTimer e m) e m).trans
        (Timers.deadline?_pop?_of_ne hp (transactionTimer_ne _ _ _ _))
    have hdue : Course.due (n.watch e m) = i.course.firings := by rw [hwatch]; rfl
    change dueAt (onTransition _ e m) e m < n.dueAt e m
    rw [dueAt, dueAt, Timers.isArmed_eq, Timers.isArmed_eq, hsame, hdue]
    omega
  -- An expiry leaves the course alone, and its timer is not armed again.
  · have hsame : (({ n with timers := ts } : Node).expired e m).watch e m = n.watch e m :=
      (watch_expired _ e m e m).trans (watch_popped hp (transactionTimer_ne _ _ _ _).symm)
    have hgone : ts.deadline? (transactionTimer e m) = none := hgone
    change dueAt (expired _ e m) e m < n.dueAt e m
    rw [dueAt, dueAt, Timers.isArmed_eq, Timers.isArmed_eq, hsame, hd]
    change (if (ts.deadline? (transactionTimer e m)).isSome then 1 else 0) + _ < _
    rw [hgone]
    simp

/-- Without bindings every firing brings the node nearer to its rest. -/
theorem rank_onTimer_lt : (({ n with timers := ts } : Node).onTimer timer).rank < n.rank := by
  refine List.sum_lt_sum _ _ ?_ ⟨_, mem_places timer.element timer.model, ?_⟩
  · rintro ⟨e, m⟩ -
    by_cases hx : (e, m) = (timer.element, timer.model)
    · obtain ⟨rfl, rfl⟩ := Prod.mk.injEq .. ▸ hx
      exact (dueAt_onTimer_lt hs h hb hp).le
    · exact (dueAt_onTimer_of_ne h hb hp hx).le
  · exact dueAt_onTimer_lt hs h hb hp

end Popped

/-! ## The loop -/

/-- Without bindings as many firings are enough as the timers of the node can fire. -/
theorem fire_ends_of_rank (hs : n.Steady) (h : n.Sound) (hb : n.IsUnbound) {fuel : Nat}
    (hf : n.rank ≤ fuel) : (fire fuel horizon n).timers.pop? horizon = none := by
  induction fuel generalizing n with
  | zero =>
    by_contra hne
    obtain ⟨⟨timer, ts⟩, hp⟩ := Option.ne_none_iff_exists'.mp hne
    have hlt := rank_onTimer_lt hs h hb hp
    omega
  | succ fuel ih =>
    rw [fire]
    cases hp : n.timers.pop? horizon with
    | none => exact hp
    | some x =>
      obtain ⟨timer, ts⟩ := x
      have hlt := rank_onTimer_lt hs h hb hp
      exact ih (hs.onTimer h hp) (h.onTimer hp)
        (IsUnbound.onTimer hb (h.toSane.popped hp).typed) (by omega)

theorem nodup_places : places.Nodup := by
  rw [places, List.nodup_flatMap]
  refine ⟨fun k _ => List.Nodup.map (fun _ _ h => (Prod.mk.inj h).2) (by decide), ?_⟩
  refine List.Pairwise.imp_of_mem ?_ List.nodup_range
  intro j k hj hk hne x hx hx'
  obtain ⟨_, -, rfl⟩ := List.mem_map.mp hx
  obtain ⟨_, -, heq⟩ := List.mem_map.mp hx'
  have hsame := congrArg UInt8.toNat (Prod.mk.inj heq).1
  rw [UInt8.toNat_ofNat_of_lt' (List.mem_range.mp hj),
    UInt8.toNat_ofNat_of_lt' (List.mem_range.mp hk)] at hsame
  exact hne hsame.symm

def settlers (n : Node) (places : List (UInt8 × Model)) : List (UInt8 × Model × Instance) :=
  places.filterMap fun (e, m) => (n.get? e m).map (e, m, ·)

theorem settlers_subperm (n : Node) : (n.settlers places).Subperm n.instances := by
  refine List.Nodup.subperm ?_ ?_
  · refine nodup_places.filterMap ?_
    rintro ⟨e, m⟩ ⟨e', m'⟩ x hx hx'
    obtain ⟨i, -, rfl⟩ := Option.map_eq_some_iff.mp hx
    obtain ⟨i', -, heq⟩ := Option.map_eq_some_iff.mp hx'
    simp only [Prod.mk.injEq] at heq
    rw [heq.1, heq.2.1]
  · intro x hx
    obtain ⟨⟨e, m⟩, -, hx⟩ := List.mem_filterMap.mp hx
    obtain ⟨i, hi, rfl⟩ := Option.map_eq_some_iff.mp hx
    exact mem_instances hi

theorem interims_le (ht : i.Typed m) : i.course.interims + 1 ≤ i.stepping.steps + UInt16.size := by
  have hsize : UInt16.size = 65536 := rfl
  unfold Course.interims
  split
  next motion hm =>
    have hm : i.motion = some motion := hm
    have hlevel := ht.motion (Option.isSome_of_eq_some hm)
    obtain ⟨a, ha⟩ : ∃ a, i.present = .level a := by
      have hp := ht.present.trans hlevel
      cases hc : i.present <;> rw [hc] at hp <;> cases hp
      exact ⟨_, rfl⟩
    obtain ⟨b, hb⟩ : ∃ b, i.target = .level b := by
      have hp := ht.target.trans hlevel
      cases hc : i.target <;> rw [hc] at hp <;> cases hp
      exact ⟨_, rfl⟩
    change (i.target.position?.getD 0 - i.present.position?.getD 0).natAbs + 1 ≤ _
    rw [ha, hb]
    have := a.le_toInt
    have := a.toInt_lt
    have := b.le_toInt
    have := b.toInt_lt
    simp only [Value.position?, Option.getD_some]
    omega
  next =>
    change i.stepping.steps + 1 ≤ _
    omega

theorem dueAt_le (ht : i.Typed m) (hi : n.get? e m = some i) : n.dueAt e m ≤ overdueBound i := by
  have hle := interims_le ht
  have hdue : Course.due (n.watch e m) ≤ 1 + i.course.interims + 1 := by
    rw [watch_of_get? hi]
    cases n.timers.deadline? (transitionTimer e m) with
    | none => exact Nat.zero_le _
    | some d =>
      simp only [Course.due, Course.firings]
      split <;> omega
  rw [dueAt, overdueBound]
  split <;> omega

theorem dueAt_of_absent (h : n.Sound) (hi : n.get? e m = none) : n.dueAt e m = 0 := by
  have hunarmed : n.timers.isArmed (transactionTimer e m) = false := by
    rw [Timers.isArmed_eq, Option.isSome_eq_false_iff, Option.isNone_iff_eq_none,
      Timers.deadline?_eq_none_iff]
    rintro a ha heq
    have hhosts := h.hosted a ha
    rw [heq, hosts] at hhosts
    have hnone : n.get? (transactionTimer e m).element (transactionTimer e m).model = none := hi
    rw [hnone] at hhosts
    cases hhosts
  have hwatch : n.watch e m = (none, n.timers.deadline? (transitionTimer e m)) := by
    rw [watch, hi]
    rfl
  rw [dueAt, hunarmed, hwatch]
  rfl

theorem sum_dueAt_le (h : n.Sound) (xs : List (UInt8 × Model)) :
    (xs.map fun (e, m) => n.dueAt e m).sum ≤
      ((n.settlers xs).map fun x => overdueBound x.2.2).sum := by
  induction xs with
  | nil => exact Nat.le_refl _
  | cons x xs ih =>
    obtain ⟨e, m⟩ := x
    rw [List.map_cons, List.sum_cons]
    cases hi : n.get? e m with
    | none =>
      have hskip : n.settlers ((e, m) :: xs) = n.settlers xs := by simp [settlers, hi]
      rw [hskip]
      dsimp only
      rwa [dueAt_of_absent h hi, Nat.zero_add]
    | some i =>
      have htake : n.settlers ((e, m) :: xs) = (e, m, i) :: n.settlers xs := by
        simp [settlers, hi]
      rw [htake, List.map_cons, List.sum_cons]
      exact Nat.add_le_add (dueAt_le (h.typed e m i hi) hi) ih

/-- The firings that are allowed for suffice without bindings. -/
theorem rank_le_firingBound (h : n.Sound) (horizon : Nat) : n.rank ≤ n.firingBound horizon := by
  obtain ⟨xs, hperm, hsub⟩ := n.settlers_subperm
  calc n.rank ≤ ((n.settlers places).map fun x => overdueBound x.2.2).sum :=
      sum_dueAt_le h places
    _ = (xs.map fun x => overdueBound x.2.2).sum := (hperm.map _).sum_eq.symm
    _ ≤ (n.instances.map fun x => overdueBound x.2.2).sum :=
      (hsub.map _).sum_le_sum fun _ _ => Nat.zero_le _
    _ = n.instances.foldr (fun x k => overdueBound x.2.2 + k) 0 := List.foldr_map
    _ ≤ n.firingBound horizon := Nat.le_add_left ..

theorem advancesTo_of_isUnbound (hs : n.Steady) (h : n.Sound) (hb : n.IsUnbound) (horizon : Nat) :
    n.AdvancesTo horizon (n.advanceTo horizon) :=
  advancesTo_of_ends (fire_ends_of_rank hs h hb (rank_le_firingBound h horizon))

/-! ## Steady nodes -/

theorem IsUnbound.isCalm (hb : n.IsUnbound) : n.IsCalm := by
  rw [IsCalm, hb]
  simp

theorem Steady.perform (hs : n.Steady) (h : n.Sound) {op : Operation}
    (hb : (n.perform op).IsUnbound) : (n.perform op).Steady := by
  cases op with
  | call x => exact hs.handle h hb.isCalm
  | advance ms => exact hs.steps h (advanceTo_steps HelpersOnly n _)
  | advanceTo time => exact hs.steps h (advanceTo_steps HelpersOnly n time)

theorem IsReached.steady (hn : n.IsReached) (hb : n.IsUnbound) : n.Steady := by
  obtain ⟨n₀, ops, h₀, rfl⟩ := hn
  induction ops using List.reverseRecOn with
  | nil => exact h₀.steady
  | append_singleton ops op ih =>
    rw [run_concat] at hb ⊢
    have hsound := h₀.sound.run ops
    have hbefore : (n₀.run ops).IsUnbound := by
      have hstep : Steps (fun _ _ => True) (n₀.run ops) ((n₀.run ops).perform op) :=
        perform_steps fun _ _ => trivial
      exact (steps_precedes hsound hstep).isUnbound hb
    exact (ih hbefore).perform hsound hb

end Node

end MeshNode
