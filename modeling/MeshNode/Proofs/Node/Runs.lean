import Mathlib.Data.List.Perm.Subperm
import MeshNode.Proofs.Node.Steps

/-! # Runs in steps

Moving the clock fires timers, one after the other, so that every run is made of steps. Within the
clock each hosted timer fires at most once at each moment: the firings allowed for suffice, and
between two operations no timer is due.
-/

namespace MeshNode.Node

variable {n n' : Node} {timer : Timer} {ts : Timers} {horizon : Nat} {P : Node → Call → Prop}

/-! ## Timers that are due -/

def due (n : Node) : Nat := n.timers.queue.countP (·.deadline ≤ n.now)

/-- A bound on the timers that fire up to a time: those that are due and each of the others once
at every later moment. -/
def firings (n : Node) (horizon : Nat) : Nat := n.due + n.timerCount * (horizon - n.now)

theorem Precedes.timerCount (h : n.Precedes n') : n'.timerCount = n.timerCount := by
  rw [Node.timerCount, Node.timerCount, length_instances_congr h.shape]

theorem Sane.length_queue_le (h : n.Sane) : n.timers.queue.length ≤ n.timerCount := by
  let timers := n.instances.flatMap fun x =>
    [transitionTimer x.1 x.2.1, transactionTimer x.1 x.2.1]
  have hsub : n.timers.queue.map Alarm.timer ⊆ timers := by
    intro timer ht
    obtain ⟨a, ha, rfl⟩ := List.mem_map.mp ht
    obtain ⟨i, hi⟩ := hosts_iff.mp (h.hosted a ha)
    refine List.mem_flatMap.mpr ⟨_, mem_instances hi, ?_⟩
    obtain ⟨⟨e, m, purpose⟩, d⟩ := a
    cases purpose <;> simp [transitionTimer, transactionTimer]
  have hlen : timers.length = n.timerCount := by
    simp [timers, List.length_flatMap, Node.timerCount, Nat.mul_comm]
  calc n.timers.queue.length = (n.timers.queue.map Alarm.timer).length := by simp
    _ ≤ timers.length := (h.ordered.nodup.subperm hsub).length_le
    _ = n.timerCount := hlen

theorem mem_onTimer (h : n.Sane) (hin : (n.onTimer timer).timers.WithinClock) {a : Alarm}
    (ha : a ∈ (n.onTimer timer).timers.queue) : a ∈ n.timers.queue ∨ n.now < a.deadline := by
  obtain ⟨e, m, rfl | rfl⟩ := timer_cases timer
  · refine ((evolves_onTransition h.typed e m).later h.stepInterval_pos a ha).imp_right ?_
    exact fun hlater => hlater.1 hin
  · exact .inl ha

theorem now_onTimer (h : n.Typed) (timer : Timer) : (n.onTimer timer).now = n.now := by
  obtain ⟨e, m, rfl | rfl⟩ := timer_cases timer
  · exact (evolves_onTransition h e m).now
  · rfl

theorem ordered_onTimer (h : n.Sane) (timer : Timer) : (n.onTimer timer).timers.Ordered := by
  obtain ⟨e, m, rfl | rfl⟩ := timer_cases timer
  · exact (evolves_onTransition h.typed e m).ordered h.ordered
  · exact h.ordered

theorem due_onTimer_le (h : n.Sane) (hin : (n.onTimer timer).timers.WithinClock) :
    (n.onTimer timer).due ≤ n.due := by
  simp only [due, List.countP_eq_length_filter]
  refine List.Subperm.length_le (List.Nodup.subperm ?_ ?_)
  · exact ((ordered_onTimer h timer).nodup.of_map _).filter _
  · intro a ha
    obtain ⟨ha, hd⟩ := List.mem_filter.mp ha
    rw [now_onTimer h.typed] at hd
    refine List.mem_filter.mpr ⟨?_, hd⟩
    rcases mem_onTimer h hin ha with ha | hlt
    · exact ha
    · exact absurd (of_decide_eq_true hd) (Nat.not_le.mpr hlt)

theorem firings_pos (h : n.Sane) (hp : n.timers.pop? horizon = some (timer, ts)) :
    0 < n.firings horizon := by
  obtain ⟨d, hq, hd, -⟩ := Timers.pop?_eq_some hp
  rw [firings]
  by_cases hdue : d ≤ n.now
  · have : 0 < n.due := List.countP_pos_iff.mpr ⟨⟨timer, d⟩, by simp [hq], by simpa using hdue⟩
    omega
  · have hcount : 0 < n.timerCount := by
      have := h.length_queue_le
      rw [hq, List.length_cons] at this
      omega
    have := Nat.mul_pos hcount (show 0 < horizon - n.now by omega)
    omega

theorem firings_onTimer_lt (h : n.Sane) (hp : n.timers.pop? horizon = some (timer, ts))
    (hin : (({ n with timers := ts } : Node).onTimer timer).timers.WithinClock) :
    (({ n with timers := ts } : Node).onTimer timer).firings horizon < n.firings horizon := by
  have hs := h.popped hp
  have hpopped := (onTimer_precedes hs.typed timer).withinClock hin
  obtain ⟨hq, hnow, hd⟩ := h.ordered.pop? ((popped_precedes hp).withinClock hpopped) hp
  have hnow : n.now ≤ ts.now := hnow
  have hcount : (({ n with timers := ts } : Node).onTimer timer).timerCount = n.timerCount :=
    (onTimer_precedes hs.typed timer).timerCount
  have hdue : (({ n with timers := ts } : Node).onTimer timer).due ≤
      ts.queue.countP (·.deadline ≤ ts.now) := due_onTimer_le hs hin
  rw [firings, firings, hcount, now_onTimer hs.typed]
  change _ + n.timerCount * (horizon - ts.now) < _
  -- In the same millisecond one timer less is due; in a later one all may be due again, once each.
  rcases Nat.eq_or_lt_of_le hnow with heq | hlt
  · have hdue' : n.due = ts.queue.countP (·.deadline ≤ ts.now) + 1 := by
      simp [due, hq, heq]
    rw [heq]
    omega
  · have hlen : ts.queue.length + 1 ≤ n.timerCount := by
      have := h.length_queue_le
      rwa [hq, List.length_cons] at this
    have hcountP := List.countP_le_length (p := fun a : Alarm => a.deadline ≤ ts.now)
      (l := ts.queue)
    have hmul : n.timerCount * (horizon - ts.now) + n.timerCount ≤
        n.timerCount * (horizon - n.now) := by
      rw [← Nat.mul_succ]
      exact Nat.mul_le_mul_left _ (by omega)
    omega

/-! ## Moving the clock -/

theorem fire_steps (P : Node → Call → Prop) (fuel horizon : Nat) (n : Node) :
    Steps P n (fire fuel horizon n) := by
  induction fuel generalizing n with
  | zero => exact .refl
  | succ fuel ih =>
    rw [fire]
    split
    next => exact .refl
    next hp => exact .head (.expiry hp) (ih _)

theorem fire_precedes (h : n.Sound) (fuel horizon : Nat) : n.Precedes (fire fuel horizon n) :=
  steps_precedes h (fire_steps (fun _ _ => True) fuel horizon n)

theorem now_fire_le (h : n.Sound) (fuel horizon : Nat) :
    (fire fuel horizon n).now ≤ max n.now horizon := by
  induction fuel generalizing n with
  | zero => exact Nat.le_max_left ..
  | succ fuel ih =>
    rw [fire]
    split
    next => exact Nat.le_max_left ..
    next timer ts hp =>
      obtain ⟨d, -, hd, hnow, -⟩ := Timers.pop?_eq_some hp
      have hle := ih (h.onTimer hp)
      rw [now_onTimer (h.toSane.popped hp).typed] at hle
      have hnow : ({ n with timers := ts } : Node).now = max n.now d := hnow
      omega

/-- Within the clock, the firings that are allowed for are enough. -/
theorem fire_ends (fuel : Nat) (h : n.Sound) (hf : n.firings horizon ≤ fuel)
    (hin : (fire fuel horizon n).timers.WithinClock) :
    (fire fuel horizon n).timers.pop? horizon = none ∧
      (fire fuel horizon n = n ∨ (fire fuel horizon n).now ≤ horizon) := by
  induction fuel generalizing n with
  | zero =>
    refine ⟨?_, .inl rfl⟩
    by_contra hne
    obtain ⟨⟨timer, ts⟩, hp⟩ := Option.ne_none_iff_exists'.mp hne
    have := firings_pos h.toSane hp
    omega
  | succ fuel ih =>
    rw [fire]
    rw [fire] at hin
    cases hp : n.timers.pop? horizon with
    | none => exact ⟨hp, .inl rfl⟩
    | some x =>
      obtain ⟨timer, ts⟩ := x
      rw [hp] at hin
      dsimp only at hin ⊢
      have hin' := (fire_precedes (h.onTimer hp) fuel horizon).withinClock hin
      have hlt := firings_onTimer_lt h.toSane hp hin'
      obtain ⟨hnone, hnow⟩ := ih (h.onTimer hp) (by omega) hin
      refine ⟨hnone, .inr ?_⟩
      rcases hnow with heq | hle
      · have hs := h.toSane.popped hp
        have hpopped := (popped_precedes hp).withinClock
          ((onTimer_precedes hs.typed timer).withinClock hin')
        rw [heq, now_onTimer hs.typed]
        exact (h.ordered.pop? hpopped hp).2.2
      · exact hle

theorem firings_le_firingBound (n : Node) (horizon : Nat) :
    n.firings horizon ≤ n.firingBound horizon :=
  (Nat.add_le_add List.countP_le_length (Nat.mul_le_mul_left _ (by omega))).trans
    (Nat.le_add_right ..)

def tick (n : Node) (horizon : Nat) : Node := { n with timers := n.timers.settle horizon }

/-- The clock is moved once no timer is due any more. -/
theorem advanceTo_of_ends
    (h : (fire (n.firingBound horizon) horizon n).timers.pop? horizon = none) :
    n.advanceTo horizon = (fire (n.firingBound horizon) horizon n).tick horizon := by
  simp only [advanceTo, h]
  rfl

theorem advanceTo_steps (P : Node → Call → Prop) (n : Node) (horizon : Nat) :
    Steps P n (n.advanceTo horizon) := by
  have hs := fire_steps P (n.firingBound horizon) horizon n
  rw [advanceTo]
  split
  next hnone => exact .tail hs (.passage hnone)
  next => exact hs

theorem now_advanceTo_le (h : n.Sound) (horizon : Nat) :
    (n.advanceTo horizon).now ≤ max n.now horizon := by
  have hfire := now_fire_le h (n.firingBound horizon) horizon
  rw [advanceTo]
  split
  next => exact Nat.max_le.mpr ⟨hfire, Nat.le_max_right ..⟩
  next => exact hfire

theorem ends_of_withinClock (h : n.Sound) (hin : (n.advanceTo horizon).timers.WithinClock) :
    (fire (n.firingBound horizon) horizon n).timers.pop? horizon = none := by
  have hfire : (fire (n.firingBound horizon) horizon n).timers.WithinClock := by
    rw [advanceTo] at hin
    split at hin
    next => exact hin
    next => exact hin
  exact (fire_ends _ h (n.firings_le_firingBound horizon) hfire).1

theorem AtRest.advanceTo (hr : n.AtRest) (h : n.Sound) (horizon : Nat) :
    (n.advanceTo horizon).AtRest := by
  intro hin a ha
  have hnone := ends_of_withinClock h hin
  rw [advanceTo_of_ends hnone] at hin ha ⊢
  have hprecedes := fire_precedes h (n.firingBound horizon) horizon
  have hsound := h.steps (fire_steps (fun _ _ => True) (n.firingBound horizon) horizon n)
  have hlate := (Timers.pop?_eq_none_iff hsound.ordered).mp hnone a ha
  refine Nat.max_lt.mpr ⟨?_, hlate⟩
  rcases (fire_ends _ h (n.firings_le_firingBound horizon) hin).2 with heq | hle
  · have hmem : a ∈ (fire (n.firingBound horizon) horizon n).timers.queue := ha
    change (fire (n.firingBound horizon) horizon n).now < a.deadline
    rw [heq] at hmem ⊢
    exact hr (hprecedes.withinClock hin) a hmem
  · exact Nat.lt_of_le_of_lt hle hlate

/-! ## Runs -/

/-- Every call of a run is permitted where it is made. -/
def Admits (P : Node → Call → Prop) : Node → List Operation → Prop
  | _, [] => True
  | n, op :: ops => (∀ x, op = .call x → P n x) ∧ Admits P (n.perform op) ops

theorem admits_of_forall {ops : List Operation} (h : ∀ n x, .call x ∈ ops → P n x) (n : Node) :
    n.Admits P ops := by
  induction ops generalizing n with
  | nil => trivial
  | cons op ops ih =>
    refine ⟨fun x hx => h n x (hx ▸ List.mem_cons_self), ih (fun n x hx => ?_) _⟩
    exact h n x (List.mem_cons_of_mem _ hx)

theorem perform_steps {op : Operation} (hop : ∀ x, op = .call x → P n x) :
    Steps P n (n.perform op) := by
  cases op with
  | call x => exact .single (.call x (hop x rfl))
  | advance ms => exact advanceTo_steps P n _
  | advanceTo horizon => exact advanceTo_steps P n horizon

theorem passage_steps {op : Operation} (hop : ∀ x, op ≠ .call x) :
    Steps (fun _ _ => False) n (n.perform op) :=
  perform_steps fun x hx => hop x hx

theorem Sound.perform (h : n.Sound) (op : Operation) : (n.perform op).Sound :=
  h.steps (perform_steps (P := fun _ _ => True) fun _ _ => trivial)

theorem AtRest.perform (hr : n.AtRest) (h : n.Sound) (op : Operation) : (n.perform op).AtRest := by
  cases op with
  | call x => exact hr.handle h x
  | advance ms => exact hr.advanceTo h _
  | advanceTo horizon => exact hr.advanceTo h horizon

theorem run_append (n : Node) (ops ops' : List Operation) :
    n.run (ops ++ ops') = (n.run ops).run ops' := List.foldl_append

theorem run_concat (n : Node) (ops : List Operation) (op : Operation) :
    n.run (ops ++ [op]) = (n.run ops).perform op := by
  rw [run_append]
  rfl

theorem run_steps {ops : List Operation} (ha : n.Admits P ops) : Steps P n (n.run ops) := by
  induction ops generalizing n with
  | nil => exact .refl
  | cons op ops ih => exact (perform_steps ha.1).trans (ih ha.2)

theorem Sound.run (h : n.Sound) (ops : List Operation) : (n.run ops).Sound := by
  induction ops generalizing n with
  | nil => exact h
  | cons op ops ih => exact ih (h.perform op)

theorem AtRest.run (hr : n.AtRest) (h : n.Sound) (ops : List Operation) : (n.run ops).AtRest := by
  induction ops generalizing n with
  | nil => exact hr
  | cons op ops ih => exact ih (hr.perform h op) (h.perform op)

theorem run_precedes (h : n.Sound) (ops : List Operation) : n.Precedes (n.run ops) := by
  induction ops generalizing n with
  | nil => exact .refl n
  | cons op ops ih =>
    have hs : Steps (fun _ _ => True) n (n.perform op) := perform_steps fun _ _ => trivial
    exact (steps_precedes h hs).trans (ih (h.perform op))

end MeshNode.Node
