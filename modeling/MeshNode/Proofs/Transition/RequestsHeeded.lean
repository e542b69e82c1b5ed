import MeshNode.Proofs.Transition.Trip

/-! # Requests are heeded

While bindings run into one another an instance can take up any number of requests. When all is
done it is as it was, if it took up none, and else on the trip that the last of them sends it on.
-/

namespace MeshNode.Node

variable {n n' n₁ n₂ : Node} {e e' : UInt8} {m m' : Model} {i : Instance} {f : Instance → Instance}

/-- An instance is on a course, and its timer is set for a time as far as the clock goes. -/
structure OnCourse (n : Node) (e : UInt8) (m : Model) (c : Course) (d : Option Nat) : Prop where
  course : (n.watch e m).1 = some c
  armed : (n.watch e m).2.isSome = d.isSome
  early : ∀ x y, (n.watch e m).2 = some x → d = some y → x ≤ y
  exact : n.timers.WithinClock → (n.watch e m).2 = d

/-- An instance is on a trip, on some leg of it since some time. Within the clock that is the time
at which the leg was to begin. -/
def Travels (n : Node) (e : UInt8) (m : Model) (p : Trip) : Prop :=
  ∃ leg edge since, p.Has leg ∧
    n.OnCourse e m (p.course edge leg) ((p.length? leg).map (since + ·)) ∧ since ≤ n.now ∧
    (n.timers.WithinClock → since = p.since leg)

def trip (n : Node) (r : Request) (origin : Value) : Trip :=
  ⟨r, n.now, origin, n.config.stepInterval.toNat⟩

/-- What requests, latest first, have made of an instance. -/
def Left (n n' : Node) (e : UInt8) (m : Model) : List Request → Prop
  | [] => n'.watch e m = n.watch e m
  | r :: _ => ∃ origin, n'.Travels e m (n'.trip r origin)

/-- The instance is as it was or on the trip of the last request that it took up since. -/
structure KeepsToRequestsAt (n n' : Node) (e : UInt8) (m : Model) : Prop where
  config : n'.config = n.config
  now : n'.now = n.now
  armings : n.timers.armings <:+ n'.timers.armings
  requests : ∃ rs : List Request,
    n'.requestsFor e m = rs.map (·, none) ++ n.requestsFor e m ∧ n.Left n' e m rs

/-- Each instance is as it was or on the trip of the last request that it took up since. -/
def KeepsToRequests (n n' : Node) : Prop := ∀ e m, n.KeepsToRequestsAt n' e m

/-- One instance took up some requests and was put on a course; nothing else was touched. -/
structure Writes (n n' : Node) (e : UInt8) (m : Model) (new : List (Request × Option Motion))
    (c : Course) (d : Option Nat) : Prop where
  config : n'.config = n.config
  bindings : n'.bindings = n.bindings
  now : n'.now = n.now
  armings : n.timers.armings <:+ n'.timers.armings
  requests : n'.requestsFor e m = new ++ n.requestsFor e m
  onCourse : n'.OnCourse e m c d
  ranges : ∀ e' m', n'.range? e' m' = n.range? e' m'
  others : ∀ e' m', (e', m') ≠ (e, m) →
    n'.requestsFor e' m' = n.requestsFor e' m' ∧ n'.watch e' m' = n.watch e' m'

/-! ## Looking after a small change -/

theorem watch_modify_self (hi : n.get? e m = some i) :
    (n.modify e m f).watch e m =
      (some (f i).course, n.timers.deadline? (transitionTimer e m)) := by
  rw [watch, get?_modify_self, hi]
  rfl

theorem watch_modify_of_ne (h : (e', m') ≠ (e, m)) :
    (n.modify e m f).watch e' m' = n.watch e' m' := by
  rw [watch, watch, get?_modify_of_ne h]
  rfl

theorem watch_eq_some {c : Course} {d : Option Nat} (h : n.watch e m = (some c, d)) :
    ∃ i, n.get? e m = some i ∧ i.course = c ∧ n.timers.deadline? (transitionTimer e m) = d := by
  obtain ⟨hc, hd⟩ := Prod.mk.injEq .. ▸ h
  obtain ⟨i, hi, hic⟩ := Option.map_eq_some_iff.mp hc
  exact ⟨i, hi, hic, hd⟩

theorem onCourse_of_watch {c : Course} {d : Option Nat} (h : n.watch e m = (some c, d)) :
    n.OnCourse e m c d := by
  refine ⟨congrArg Prod.fst h, by rw [h], fun x y hx hy => ?_, fun _ => congrArg Prod.snd h⟩
  rw [h] at hx
  exact (Option.some.inj (hx.symm.trans hy)).le

namespace OnCourse

variable {c c' : Course} {d : Option Nat}

theorem exists_get? (h : n.OnCourse e m c d) : ∃ i, n.get? e m = some i ∧ i.course = c :=
  Option.map_eq_some_iff.mp h.course

theorem exists_get?_of_watch (h : n.OnCourse e m c d) (hw : n'.watch e m = n.watch e m) :
    ∃ i, n'.get? e m = some i ∧ i.course = c :=
  Option.map_eq_some_iff.mp ((congrArg Prod.fst hw).trans h.course)

theorem cast {d' : Option Nat} (h : n.OnCourse e m c d) (hc : c = c') (hd : d = d') :
    n.OnCourse e m c' d' :=
  hc ▸ hd ▸ h

theorem watch_eq (h : n.OnCourse e m c d) (hin : n.timers.WithinClock) :
    n.watch e m = (some c, d) :=
  Prod.ext h.course (h.exact hin)

theorem watch_of_none (h : n.OnCourse e m c none) : n.watch e m = (some c, none) :=
  Prod.ext h.course (Option.isNone_iff_eq_none.mp (by simpa using h.armed))

theorem congr (h : n.OnCourse e m c d) (hw : n'.watch e m = n.watch e m)
    (ha : n.timers.armings <:+ n'.timers.armings) : n'.OnCourse e m c d := by
  refine ⟨?_, ?_, ?_, fun hin => ?_⟩
  · rw [hw, h.course]
  · rw [hw, h.armed]
  · rw [hw]
    exact h.early
  · rw [hw, h.exact (hin.of_suffix ha)]

theorem withCourse (h : n.OnCourse e m c d) (hc : (n'.watch e m).1 = some c')
    (ht : n'.timers = n.timers) : n'.OnCourse e m c' d := by
  have hd : (n'.watch e m).2 = (n.watch e m).2 := by rw [watch, watch, ht]
  refine ⟨hc, ?_, ?_, fun hin => ?_⟩
  · rw [hd, h.armed]
  · rw [hd]
    exact h.early
  · rw [hd, h.exact (ht ▸ hin)]

theorem arm (h : n.OnCourse e m c d) (after : Nat) :
    (n.arm (transitionTimer e m) after).OnCourse e m c (some (n.now + after)) := by
  have hd : ((n.arm (transitionTimer e m) after).watch e m).2 =
      some (Timers.onClock (n.now + after)) := Timers.deadline?_arm_self
  refine ⟨h.course, by rw [hd]; rfl, fun x y hx hy => ?_, fun hin => ?_⟩
  · rw [← Option.some.inj (hd.symm.trans hx), ← Option.some.inj hy]
    exact Timers.onClock_le _
  · rw [hd]
    exact congrArg some hin.onClock_armed

theorem cancel (h : n.OnCourse e m c d) :
    (n.cancel (transitionTimer e m)).OnCourse e m c none :=
  onCourse_of_watch (Prod.ext h.course Timers.deadline?_cancel_self)

end OnCourse

theorem transitionTimer_ne (h : (e', m') ≠ (e, m)) :
    transitionTimer e' m' ≠ transitionTimer e m := by
  intro ht
  simp only [transitionTimer, Timer.mk.injEq, and_true] at ht
  exact h (Prod.ext ht.1 ht.2)

theorem watch_cancel_of_ne (hx : (e', m') ≠ (e, m)) :
    (n.cancel (transitionTimer e m)).watch e' m' = n.watch e' m' :=
  Prod.ext rfl (Timers.deadline?_cancel_of_ne (transitionTimer_ne hx))

theorem Tells.requestsFor (h : n.Tells n') (e : UInt8) (m : Model) :
    n'.requestsFor e m = n.requestsFor e m := by
  obtain ⟨es, rfl, hes⟩ := h
  have hnil : es.filterMap (Effect.requestFor? e m) = [] := by
    apply List.filterMap_eq_nil_iff.mpr
    intro x hx
    cases x with
    | requested r motion => exact absurd hx (hes r motion)
    | _ => rfl
  simp [Node.requestsFor, List.filterMap_append, hnil]

theorem Tells.watch (h : n.Tells n') (e : UInt8) (m : Model) : n'.watch e m = n.watch e m := by
  obtain ⟨es, rfl, -⟩ := h
  rfl

/-! ## Writing a course -/

namespace Writes

variable {new : List (Request × Option Motion)} {c c' : Course} {d : Option Nat}

theorem refl (h : n.OnCourse e m c d) : n.Writes n e m [] c d :=
  ⟨rfl, rfl, rfl, List.suffix_rfl, rfl, h, fun _ _ => rfl, fun _ _ _ => ⟨rfl, rfl⟩⟩

theorem modify (h : n.Writes n₁ e m new c d) (hf : ∀ i, i.course = c → (f i).course = c')
    (hl : ∀ i, (f i).light.range = i.light.range) :
    n.Writes (n₁.modify e m f) e m new c' d where
  config := h.config
  bindings := h.bindings
  now := h.now
  armings := h.armings
  requests := h.requests
  onCourse := by
    obtain ⟨i, hi, hic⟩ := h.onCourse.exists_get?
    refine h.onCourse.withCourse ?_ rfl
    rw [watch_modify_self hi, hf i hic]
  ranges e' m' := (range?_modify hl e' m').trans (h.ranges e' m')
  others e' m' hx := ⟨(h.others e' m' hx).1, by rw [watch_modify_of_ne hx, (h.others e' m' hx).2]⟩

theorem note (h : n.Writes n₁ e m new c d) (r : Request) (motion : Option Motion)
    (he : r.element = e) (hm : r.model = m) :
    n.Writes (n₁.note (.requested r motion)) e m ((r, motion) :: new) c d where
  config := h.config
  bindings := h.bindings
  now := h.now
  armings := h.armings
  requests := by
    have hr : (n₁.note (.requested r motion)).requestsFor e m =
        (r, motion) :: n₁.requestsFor e m := by
      simp [Node.requestsFor, Node.note, Effect.requestFor?, he, hm]
    rw [hr, h.requests]
    rfl
  onCourse := h.onCourse.withCourse h.onCourse.course rfl
  ranges := h.ranges
  others e' m' hx := by
    refine ⟨?_, (h.others e' m' hx).2⟩
    rw [← (h.others e' m' hx).1]
    have hne : ¬ (r.element = e' ∧ r.model = m') := by
      rintro ⟨rfl, rfl⟩
      exact hx (Prod.ext he hm)
    simp [Node.requestsFor, Node.note, Effect.requestFor?, hne]

theorem arm (h : n.Writes n₁ e m new c d) (after : Nat) :
    n.Writes (n₁.arm (transitionTimer e m) after) e m new c (some (n.now + after)) where
  config := h.config
  bindings := h.bindings
  now := h.now
  armings := h.armings.trans Timers.armings_arm
  requests := h.requests
  onCourse := h.now ▸ h.onCourse.arm after
  ranges := h.ranges
  others e' m' hx := by
    refine ⟨(h.others e' m' hx).1, ?_⟩
    rw [← (h.others e' m' hx).2]
    exact Prod.ext rfl (Timers.deadline?_arm_of_ne (transitionTimer_ne hx))

theorem cancel (h : n.Writes n₁ e m new c d) :
    n.Writes (n₁.cancel (transitionTimer e m)) e m new c none where
  config := h.config
  bindings := h.bindings
  now := h.now
  armings := h.armings
  requests := h.requests
  onCourse := h.onCourse.cancel
  ranges := h.ranges
  others e' m' hx := by
    refine ⟨(h.others e' m' hx).1, ?_⟩
    rw [← (h.others e' m' hx).2]
    exact Prod.ext rfl (Timers.deadline?_cancel_of_ne (transitionTimer_ne hx))

theorem trans {new' : List (Request × Option Motion)} {d' : Option Nat}
    (h : n.Writes n₁ e m new c d) (h' : n₁.Writes n₂ e m new' c' d') :
    n.Writes n₂ e m (new' ++ new) c' d' where
  config := h'.config.trans h.config
  bindings := h'.bindings.trans h.bindings
  now := h'.now.trans h.now
  armings := h.armings.trans h'.armings
  requests := by rw [h'.requests, h.requests, List.append_assoc]
  onCourse := h'.onCourse
  ranges e' m' := (h'.ranges e' m').trans (h.ranges e' m')
  others e' m' hx := by
    obtain ⟨hr, hw⟩ := h.others e' m' hx
    obtain ⟨hr', hw'⟩ := h'.others e' m' hx
    exact ⟨hr'.trans hr, hw'.trans hw⟩

end Writes

/-! ## Heeding -/

theorem Travels.congr {p : Trip} (h : n.Travels e m p) (hw : n'.watch e m = n.watch e m)
    (hnow : n.now ≤ n'.now) (ha : n.timers.armings <:+ n'.timers.armings) : n'.Travels e m p := by
  obtain ⟨leg, edge, since, hleg, hcourse, hsince, hexact⟩ := h
  exact ⟨leg, edge, since, hleg, hcourse.congr hw ha, hsince.trans hnow,
    fun hin => hexact (hin.of_suffix ha)⟩

def mark (n : Node) (e : UInt8) (m : Model) : Node :=
  n.modify e m fun i => { i with edgeResolved := true }

theorem watch_mark (n : Node) (e : UInt8) (m : Model) :
    (n.mark e m).watch e m =
      ((n.watch e m).1.map fun c => { c with edgeResolved := true }, (n.watch e m).2) := by
  refine Prod.ext ?_ rfl
  rw [watch, mark, get?_modify_self, Option.map_map]
  change _ = ((n.get? e m).map Instance.course).map _
  rw [Option.map_map]
  rfl

theorem Travels.mark {p : Trip} (h : n.Travels e m p) (e' : UInt8) (m' : Model) :
    (n.mark e' m').Travels e m p := by
  by_cases hx : (e, m) = (e', m')
  · obtain ⟨rfl, rfl⟩ := Prod.mk.injEq .. ▸ hx
    obtain ⟨leg, edge, since, hleg, hcourse, hsince⟩ := h
    refine ⟨leg, true, since, hleg, hcourse.withCourse ?_ rfl, hsince⟩
    rw [watch_mark, hcourse.course]
    cases leg <;> rfl
  · exact h.congr (watch_modify_of_ne hx) (Nat.le_refl _) List.suffix_rfl

theorem trip_congr (hc : n'.config = n.config) (hn : n'.now = n.now) : n'.trip = n.trip := by
  funext r v
  rw [trip, trip, hc, hn]

namespace KeepsToRequestsAt

theorem of_watch (hc : n'.config = n.config) (hn : n'.now = n.now)
    (ha : n.timers.armings <:+ n'.timers.armings)
    (hr : n'.requestsFor e m = n.requestsFor e m) (hw : n'.watch e m = n.watch e m) :
    n.KeepsToRequestsAt n' e m :=
  ⟨hc, hn, ha, [], hr, hw⟩

theorem trans (h : n.KeepsToRequestsAt n₁ e m) (h' : n₁.KeepsToRequestsAt n₂ e m) :
    n.KeepsToRequestsAt n₂ e m where
  config := h'.config.trans h.config
  now := h'.now.trans h.now
  armings := h.armings.trans h'.armings
  requests := by
    obtain ⟨rs, hr, hl⟩ := h.requests
    obtain ⟨rs', hr', hl'⟩ := h'.requests
    refine ⟨rs' ++ rs, by rw [hr', hr, List.map_append, List.append_assoc], ?_⟩
    cases rs' with
    | cons r rest => exact hl'
    | nil =>
      cases rs with
      | nil => exact Eq.trans hl' hl
      | cons r rest =>
        obtain ⟨origin, ht⟩ := hl
        refine ⟨origin, ?_⟩
        rw [trip_congr h'.config h'.now]
        exact ht.congr hl' h'.now.ge h'.armings

theorem suffix (h : n.KeepsToRequestsAt n' e m) : n.requestsFor e m <:+ n'.requestsFor e m := by
  obtain ⟨rs, hrs, -⟩ := h.requests
  exact ⟨_, hrs.symm⟩

theorem watch (h : n.KeepsToRequestsAt n' e m) (hr : n'.requestsFor e m = n.requestsFor e m) :
    n'.watch e m = n.watch e m := by
  obtain ⟨rs, hrs, hl⟩ := h.requests
  rw [hr] at hrs
  obtain rfl : rs = [] := by
    have hlen := congrArg List.length hrs
    simp only [List.length_append, List.length_map] at hlen
    exact List.length_eq_zero_iff.mp (by omega)
  exact hl

/-- An instance that took up a request is on the trip of the last one. -/
theorem travels (h : n.KeepsToRequestsAt n' e m) {r : Request}
    {rest : List (Request × Option Motion)}
    (hr : n'.requestsFor e m = (r, none) :: rest)
    (hne : n'.requestsFor e m ≠ n.requestsFor e m) :
    ∃ origin, n'.Travels e m (n'.trip r origin) := by
  obtain ⟨rs, hrs, hl⟩ := h.requests
  cases rs with
  | nil => exact absurd hrs hne
  | cons r' rs =>
    rw [hr] at hrs
    obtain rfl : r = r' := congrArg Prod.fst (List.cons.inj hrs).1
    exact hl

end KeepsToRequestsAt

namespace KeepsToRequests

theorem config (h : n.KeepsToRequests n') : n'.config = n.config := (h 0 .onOff).config

theorem now (h : n.KeepsToRequests n') : n'.now = n.now := (h 0 .onOff).now

theorem armings (h : n.KeepsToRequests n') : n.timers.armings <:+ n'.timers.armings :=
  (h 0 .onOff).armings

theorem of_watch (hc : n'.config = n.config) (hn : n'.now = n.now)
    (ha : n.timers.armings <:+ n'.timers.armings)
    (h : ∀ e m, n'.requestsFor e m = n.requestsFor e m ∧ n'.watch e m = n.watch e m) :
    n.KeepsToRequests n' :=
  fun e m => .of_watch hc hn ha (h e m).1 (h e m).2

theorem refl (n : Node) : n.KeepsToRequests n :=
  .of_watch rfl rfl List.suffix_rfl fun _ _ => ⟨rfl, rfl⟩

theorem trans (h : n.KeepsToRequests n₁) (h' : n₁.KeepsToRequests n₂) :
    n.KeepsToRequests n₂ :=
  fun e m => (h e m).trans (h' e m)

theorem tells (h : n.KeepsToRequests n₁) (ht : n₁.Tells n₂) : n.KeepsToRequests n₂ :=
  h.trans (.of_watch ht.evolves.config ht.evolves.now ht.evolves.armings fun e m =>
    ⟨ht.requestsFor e m, ht.watch e m⟩)

theorem mark (h : n.KeepsToRequests n') (e : UInt8) (m : Model) :
    (n.mark e m).KeepsToRequests (n'.mark e m) := by
  intro e' m'
  obtain ⟨rs, hr, hl⟩ := (h e' m').requests
  refine ⟨h.config, h.now, h.armings, rs, hr, ?_⟩
  cases rs with
  | nil =>
    by_cases hx : (e', m') = (e, m)
    · obtain ⟨rfl, rfl⟩ := Prod.mk.injEq .. ▸ hx
      change (n'.mark e' m').watch e' m' = (n.mark e' m').watch e' m'
      have hl : n'.watch e' m' = n.watch e' m' := hl
      rw [watch_mark, watch_mark, hl]
    · exact (watch_modify_of_ne hx).trans (Eq.trans hl (watch_modify_of_ne hx).symm)
  | cons r rest =>
    obtain ⟨origin, ht⟩ := hl
    exact ⟨origin, ht.mark e m⟩

end KeepsToRequests

theorem Writes.keepsToRequestsAt {new : List (Request × Option Motion)} {c : Course}
    {d : Option Nat}
    (h : n.Writes n₁ e m new c d) (hx : (e', m') ≠ (e, m)) : n.KeepsToRequestsAt n₁ e' m' :=
  .of_watch h.config h.now h.armings (h.others e' m' hx).1 (h.others e' m' hx).2

theorem Writes.keepsToRequests {r : Request} {c : Course} {d : Option Nat} {origin : Value}
    (h : n.Writes n₁ e m [(r, none)] c d) (ht : n₁.Travels e m (n₁.trip r origin)) :
    n.KeepsToRequests n₁ := by
  intro e' m'
  by_cases hx : (e', m') = (e, m)
  · obtain ⟨rfl, rfl⟩ := Prod.mk.injEq .. ▸ hx
    exact ⟨h.config, h.now, h.armings, [r], h.requests, origin, ht⟩
  · exact h.keepsToRequestsAt hx

end MeshNode.Node
