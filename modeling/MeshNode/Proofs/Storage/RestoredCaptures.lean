import MeshNode.Proofs.Node.WellFormedInstances

/-! # Loading what was captured

A snapshot that was captured of an instance, whatever it was in the middle of, is valid and can be
loaded into any instance of the same model with as many scene slots. That instance comes to hold
what was captured and is in the middle of nothing; nothing else on its node changes.
-/

namespace MeshNode

variable {m : Model} {i j k : Instance} {e : UInt8}

theorem overlay_of_length_eq {α : Type} {as bs : List α} (h : as.length = bs.length) :
    overlay as bs = bs := by
  induction as generalizing bs with
  | nil => exact (List.eq_nil_of_length_eq_zero h.symm).symm
  | cons a as ih =>
    cases bs with
    | nil => cases h
    | cons b bs => exact congrArg (b :: ·) (ih (Nat.succ.inj h))

theorem Instance.WellFormed.validate_capture {slots : Nat} (h : i.WellFormed m slots) (e : UInt8)
    (id : String) (taken : Instant) :
    (Snapshot.ofImage id taken (.capture e m i)).validate = .ok () := by
  refine Snapshot.validate_eq_ok.mpr ⟨rfl, fun v hv => ?_, LightMemory.isRange_iff.mpr h.range⟩
  simp only [Snapshot.values, Snapshot.ofImage, Image.capture, List.mem_cons, List.mem_filterMap,
    exists_eq_right] at hv
  rcases hv with rfl | rfl | hv
  · exact h.present
  · exact h.target
  · exact h.scenes v hv

structure Instance.Revives (k i : Instance) : Prop where
  present : k.present = i.present
  target : k.target = i.target
  scenes : k.scenes = i.scenes
  light : k.light = i.light
  history : k.history = i.history
  phase : k.phase = .idle
  transaction : k.transaction.pair? = none
  pendingReply : k.pendingReply = none
  motion : k.motion = none
  stepping : k.stepping = .none
  deltaOrigin : k.deltaOrigin = none

theorem Instance.revives_load (h : i.scenes.length = j.scenes.length) (e : UInt8) (m : Model) :
    (j.load (.capture e m i)).Revives i where
  present := rfl
  target := rfl
  scenes := overlay_of_length_eq h.symm
  light := rfl
  history := rfl
  phase := rfl
  transaction := rfl
  pendingReply := rfl
  motion := rfl
  stepping := rfl
  deltaOrigin := rfl

namespace Node

variable {a b n : Node}

/-- The node can be met at some moment of a run, also in the midst of an operation. -/
def IsMet (n : Node) : Prop :=
  ∃ (n₀ : Node) (js : List Job), n₀.IsBuilt ∧ Moment.Later (fun _ _ => True) ⟨n₀, []⟩ ⟨n, js⟩

theorem IsReached.isMet (h : n.IsReached) : n.IsMet := by
  obtain ⟨n₀, ops, hn₀, rfl⟩ := h
  exact ⟨n₀, [], hn₀, later_of_run _ ops⟩

/-- One instance of the second node revives what another one holds and has no timer armed, and
everything else is as on the first node. -/
structure Restores (e : UInt8) (m : Model) (i : Instance) (b n : Node) : Prop where
  revives : ∃ k, n.get? e m = some k ∧ k.Revives i
  disarmed : n.timers.isArmed (transitionTimer e m) = false ∧
    n.timers.isArmed (transactionTimer e m) = false
  instances : ∀ e' m', (e', m') ≠ (e, m) → n.get? e' m' = b.get? e' m'
  timers : ∀ timer, timer ≠ transitionTimer e m → timer ≠ transactionTimer e m →
    n.timers.deadline? timer = b.timers.deadline? timer
  now : n.now = b.now
  /-- Nothing was told, sent, published or saved. -/
  log : n.log = b.log
  rest : n = { b with elements := n.elements, timers := n.timers }

theorem restores_loaded (hj : b.get? e m = some j) (h : i.scenes.length = j.scenes.length) :
    Restores e m i b (b.loaded (.capture e m i)) where
  revives := by
    refine ⟨j.load (.capture e m i), ?_, Instance.revives_load h e m⟩
    exact get?_modify_self.trans (congrArg (Option.map _) hj)
  disarmed := by
    have hne : transitionTimer e m ≠ transactionTimer e m := (transactionTimer_ne e e m m).symm
    rw [Timers.isArmed_eq, Timers.isArmed_eq]
    constructor
    · exact congrArg Option.isSome
        ((Timers.deadline?_cancel_of_ne hne).trans Timers.deadline?_cancel_self)
    · exact congrArg Option.isSome Timers.deadline?_cancel_self
  instances _ _ hx := get?_modify_of_ne hx
  timers _ h₁ h₂ := (Timers.deadline?_cancel_of_ne h₂).trans (Timers.deadline?_cancel_of_ne h₁)
  now := rfl
  log := rfl
  rest := rfl

theorem restore_of_valid {s : Snapshot} (hv : s.validate = .ok ())
    (hh : n.hosts s.image.element s.image.model) : n.restore s = .ok (n.loaded s.image) := by
  rw [restore_eq, hv]
  exact if_pos hh

/-- What was captured of an instance at any moment can be loaded into any instance of the model with
as many scene slots. -/
theorem restore_capture (ha : a.IsMet) (hi : a.get? e m = some i) (hj : b.get? e m = some j)
    (hslots : i.scenes.length = j.scenes.length) (id : String) (taken : Instant) :
    ∃ s n, a.capture? e m id taken = some s ∧ b.restore s = .ok n ∧ Restores e m i b n := by
  obtain ⟨n₀, js, hn₀, hmet⟩ := ha
  have hvalid := ((hn₀.inOrder hmet).node.instances e m i hi).validate_capture e id taken
  refine ⟨_, _, congrArg (Option.map _) hi, ?_, restores_loaded hj hslots⟩
  exact restore_of_valid hvalid (hosts_iff.mpr ⟨j, hj⟩)

/-- A level that is captured on its way is loaded into one whose change is delayed and answered
later. -/
theorem restore_capture_soloLevel :
    let a := soloLevel.run [.call (.request (.application 0 (.level 3000) 3000 0)), .advance 1000]
    let b := soloLevel.run
      [.call (.receive ⟨0, 4609, 0, true⟩ (.set .level [0xf4, 1, 2, 5, 10] true))]
    ∃ i j, a.get? 0 .level = some i ∧ i.phase = .transitioning ∧
      b.get? 0 .level = some j ∧ j.phase = .delayed ∧ j.pendingReply = some ⟨4609, 0, true⟩ ∧
      i.scenes.length = j.scenes.length ∧
      ∃ s n, a.capture? 0 .level "" .epoch = some s ∧ b.restore s = .ok n ∧
        Restores 0 .level i b n := by
  intro a b
  have hcaptured : (a.get? 0 .level).map (fun i => (i.phase, i.scenes.length)) =
      some (.transitioning, 16) := by decide +kernel
  have hloaded : (b.get? 0 .level).map (fun j => (j.phase, j.pendingReply, j.scenes.length)) =
      some (.delayed, some ⟨4609, 0, true⟩, 16) := by decide +kernel
  obtain ⟨i, hi, heq⟩ := Option.map_eq_some_iff.mp hcaptured
  obtain ⟨j, hj, heq'⟩ := Option.map_eq_some_iff.mp hloaded
  simp only [Prod.mk.injEq] at heq heq'
  have hslots : i.scenes.length = j.scenes.length := heq.2.trans heq'.2.2.symm
  have ha : a.IsReached := ⟨soloLevel, _, isBuilt_soloLevel, rfl⟩
  exact ⟨i, j, hi, heq.1, hj, heq'.1, heq'.2.1, hslots,
    restore_capture ha.isMet hi hj hslots "" .epoch⟩

end Node

end MeshNode
