import MeshNode.Proofs.Node.MessageReception

/-! # Sound nodes

A node in use has a valid configuration, its timers are in order and belong to instances that it
hosts, its instances hold values of their models, and every transaction that it remembers is about
to be forgotten. All calls and the firing of timers keep it so.
-/

namespace MeshNode.Node

/-- What holds of a node whatever it remembers. -/
structure Sane (n : Node) : Prop where
  config : n.config.problems = []
  ordered : n.timers.Ordered
  hosted : ∀ a ∈ n.timers.queue, n.hosts a.timer.element a.timer.model
  typed : n.Typed

/-- Every remembered transaction is forgotten in time. -/
def Forgets (n : Node) : Prop :=
  ∀ e m i, n.get? e m = some i → i.transaction.source ≠ unassigned →
    ∃ d, n.timers.deadline? (transactionTimer e m) = some d ∧
      d ≤ n.now + n.config.dedupTimeout.toNat

structure Sound (n : Node) : Prop extends n.Sane where
  forgets : n.Forgets

/-- No timer is due, if none was ever armed for a time past the end of the clock. -/
def AtRest (n : Node) : Prop :=
  n.timers.WithinClock → ∀ a ∈ n.timers.queue, n.now < a.deadline

variable {n n' : Node} {e : UInt8} {m : Model} {timer : Timer} {ts : Timers} {horizon : Nat}

theorem Sane.stepInterval_pos (h : n.Sane) : 0 < n.config.stepInterval.toNat := by
  have hc := h.config
  simp only [Config.problems, List.append_eq_nil_iff, ite_eq_left_iff, ite_eq_right_iff] at hc
  have : n.config.stepInterval ≠ 0 := fun h0 => by simpa using hc.1.1.2 h0
  exact Nat.pos_of_ne_zero fun h0 => this (UInt32.toNat_inj.mp h0)

theorem Sane.moveInterval_pos (h : n.Sane) : 0 < n.config.moveInterval.toNat := by
  have hc := h.config
  simp only [Config.problems, List.append_eq_nil_iff, ite_eq_left_iff, ite_eq_right_iff] at hc
  have : n.config.moveInterval ≠ 0 := fun h0 => by simpa using hc.1.2 h0
  exact Nat.pos_of_ne_zero fun h0 => this (UInt32.toNat_inj.mp h0)

theorem Sane.dedupTimeout_pos (h : n.Sane) : 0 < n.config.dedupTimeout.toNat := by
  have hc := h.config
  simp only [Config.problems, List.append_eq_nil_iff, ite_eq_left_iff, ite_eq_right_iff] at hc
  have : n.config.dedupTimeout ≠ 0 := fun h0 => by simpa using hc.1.1.1.2 h0
  exact Nat.pos_of_ne_zero fun h0 => this (UInt32.toNat_inj.mp h0)

theorem Sane.maxBindDepth_pos (h : n.Sane) : 0 < n.config.maxBindDepth.toNat := by
  have hc := h.config
  simp only [Config.problems, List.append_eq_nil_iff, ite_eq_left_iff, ite_eq_right_iff] at hc
  have hne : n.config.maxBindDepth ≠ 0 := fun h0 => by simpa using hc.2 h0
  exact Nat.pos_of_ne_zero fun h0 => hne (UInt64.toNat_inj.mp h0)

/-! ## Changes of state -/

theorem Sane.evolves (h : n.Sane) (he : n.Evolves n') : n'.Sane where
  config := by rw [he.config, h.config]
  ordered := he.ordered h.ordered
  hosted a ha := by
    rw [he.hosts]
    rcases he.later h.stepInterval_pos a ha with ha | ⟨-, hh⟩
    · exact h.hosted a ha
    · exact hh
  typed := he.typed h.typed

theorem Forgets.evolves (h : n.Forgets) (he : n.Evolves n') : n'.Forgets := by
  intro e m i hi hs
  have htr := he.transaction e m
  rw [hi, Option.map_some] at htr
  obtain ⟨j, hj, hij⟩ := Option.map_eq_some_iff.mp htr.symm
  rw [he.expiry, he.now, he.config]
  exact h e m j hj (by rwa [hij])

theorem Sound.evolves (h : n.Sound) (he : n.Evolves n') : n'.Sound :=
  ⟨h.toSane.evolves he, h.forgets.evolves he⟩

theorem AtRest.evolves (h : n.AtRest) (hn : n.Sane) (he : n.Evolves n') : n'.AtRest := by
  intro hin a ha
  rw [he.now]
  rcases he.later hn.stepInterval_pos a ha with ha | ⟨hlt, -⟩
  · exact h (hin.of_suffix he.armings) a ha
  · exact hlt hin

/-! ## Messages -/

theorem get?_remember {c : Envelope} {k : UInt8} {ack : Bool} :
    (n.remember c m k ack).get? = (n.modify c.element m fun i =>
      { i with
        transaction := ⟨c.src, k⟩
        pendingReply := if ack then some c.reply else none }).get? :=
  rfl

theorem watch_remember {c : Envelope} {k : UInt8} {ack : Bool} (e : UInt8) (m' : Model) :
    (n.remember c m k ack).watch e m' = n.watch e m' := by
  have hget := congrArg Prod.fst (watch_modify_of_course (n := n) (e := c.element) (m := m)
    (f := fun i => { i with
      transaction := ⟨c.src, k⟩
      pendingReply := if ack then some c.reply else none }) (fun _ => rfl) e m')
  have hne : transitionTimer e m' ≠ transactionTimer c.element m :=
    (transactionTimer_ne _ _ _ _).symm
  exact Prod.ext hget (Timers.deadline?_arm_of_ne hne)

theorem shape_remember {c : Envelope} {k : UInt8} {ack : Bool} :
    (n.remember c m k ack).shape = n.shape :=
  shape_modify

theorem transactionTimer_inj {e e' : UInt8} {m m' : Model}
    (h : transactionTimer e' m' = transactionTimer e m) : (e', m') = (e, m) := by
  simp only [transactionTimer, Timer.mk.injEq, and_true] at h
  exact Prod.ext h.1 h.2

theorem typed_remember (hn : n.Typed) {c : Envelope} {k : UInt8} {ack : Bool} :
    (n.remember c m k ack).Typed := by
  intro e' m' i hi
  rw [get?_remember] at hi
  rcases get?_modify_eq_some hi with hi | ⟨rfl, rfl, j, hj, rfl⟩
  · exact hn e' m' i hi
  · exact (hn _ _ j hj).congr rfl

theorem Sane.remember (h : n.Sane) {c : Envelope} {k : UInt8} {ack : Bool}
    (hh : n.hosts c.element m) : (n.remember c m k ack).Sane where
  config := h.config
  ordered := h.ordered.arm _ _
  hosted a ha := by
    rw [hosts_congr shape_remember]
    rcases Timers.mem_arm.mp ha with rfl | ⟨ha, -⟩
    · exact hh
    · exact h.hosted a ha
  typed := typed_remember h.typed

theorem Forgets.remember (h : n.Forgets) {c : Envelope} {k : UInt8} {ack : Bool} :
    (n.remember c m k ack).Forgets := by
  intro e' m' i hi hs
  by_cases hx : (e', m') = (c.element, m)
  · obtain ⟨rfl, rfl⟩ := Prod.mk.injEq .. ▸ hx
    exact ⟨_, Timers.deadline?_arm_self, Timers.onClock_le _⟩
  · rw [get?_remember, get?_modify_of_ne hx] at hi
    obtain ⟨d, hd, hle⟩ := h e' m' i hi hs
    exact ⟨d, (Timers.deadline?_arm_of_ne fun ht => hx (transactionTimer_inj ht)).trans hd, hle⟩

theorem AtRest.remember (h : n.AtRest) (hn : n.Sane) {c : Envelope} {k : UInt8} {ack : Bool} :
    (n.remember c m k ack).AtRest := by
  intro hin a ha
  rcases Timers.mem_arm.mp ha with rfl | ⟨ha, -⟩
  · exact hin.onClock_armed.symm ▸ Nat.lt_add_of_pos_right hn.dedupTimeout_pos
  · exact h (hin.of_suffix Timers.armings_arm) a ha

theorem Moves.evolves (h : n.Moves e n') (hn : n.Typed) : n.Evolves n' := by
  cases h with
  | stay => exact .refl n
  | halt =>
    cases hi : n.get? e .level with
    | none =>
      simp only [Node.halt, show (n.cancel (transitionTimer e .level)).get? e .level = none from hi]
      exact evolves_cancel
    | some i => exact evolves_halt hn hi
  | start bound t d motion _ => exact evolves_start evolves_follow rfl fun _ => rfl

/-- A message leaves the node as it evolves, after a transaction was remembered if it was taken
up. -/
theorem receive_evolves (hn : n.Typed) (c : Envelope) (message : Message) :
    n.Evolves (n.receive c message).1 ∧
      (message.tid? = none ∨ (n.receive c message).2 ≠ .accepted) ∨
      ∃ n₀ k ack, n.Works n₀ ∧ message.tid? = some k ∧
        (n.receive c message).2 = .accepted ∧ n.hosts c.element message.model ∧
        (n₀.remember c message.model k ack).Evolves (n.receive c message).1 := by
  have h := reception n c message
  generalize n.receive c message = res at h ⊢
  cases h with
  | absent | dropped | duplicate => exact .inl ⟨.refl n, .inr (by simp)⟩
  | answered m hm h => exact .inl ⟨h.evolves, .inl (by rw [hm]; rfl)⟩
  | stored hk hv ht hget h =>
    refine .inl ⟨.trans ?_ h.evolves, .inl hk⟩
    exact evolves_modify (fun _ => rfl) (fun _ => .inl rfl) fun _ hi =>
      ⟨rfl, rfl, hi.stepping, hi.motion⟩
  | taken ack hi hk hr h₀ hlog h₁ h =>
    refine .inr ⟨_, _, ack, h₀, hk, rfl, hosts_iff.mpr ⟨_, hi⟩, .trans ?_ h.evolves⟩
    rcases h₁ with rfl | ⟨-, hm⟩
    · exact .refl _
    · exact hm.evolves (typed_remember (h₀.evolves.typed hn))

/-! ## Starting anew -/

def disarm (t : Timers) (x : UInt8 × Model × Instance) : Timers :=
  (t.cancel (transitionTimer x.1 x.2.1)).cancel (transactionTimer x.1 x.2.1)

theorem timers_reset (n : Node) : n.reset.timers = n.instances.foldl disarm n.timers := rfl

theorem mem_reset {a : Alarm} : a ∈ n.reset.timers.queue ↔ a ∈ n.timers.queue ∧
    ∀ x ∈ n.instances, a.timer ≠ transitionTimer x.1 x.2.1 ∧
      a.timer ≠ transactionTimer x.1 x.2.1 := by
  have hfold (xs : List (UInt8 × Model × Instance)) (t : Timers) :
      a ∈ (xs.foldl disarm t).queue ↔ a ∈ t.queue ∧ ∀ x ∈ xs, a.timer ≠ transitionTimer x.1 x.2.1 ∧
        a.timer ≠ transactionTimer x.1 x.2.1 := by
    induction xs generalizing t with
    | nil => simp
    | cons x xs ih =>
      rw [List.foldl_cons, ih, disarm, Timers.mem_cancel, Timers.mem_cancel]
      simp only [List.forall_mem_cons]
      tauto
  rw [timers_reset]
  exact hfold n.instances n.timers

theorem now_reset : n.reset.now = n.now := by
  have hfold (xs : List (UInt8 × Model × Instance)) (t : Timers) :
      (xs.foldl disarm t).now = t.now := by
    induction xs generalizing t with
    | nil => rfl
    | cons x xs ih => exact ih _
  rw [now, timers_reset]
  exact hfold n.instances n.timers

theorem armings_reset : n.reset.timers.armings = n.timers.armings := by
  have hfold (xs : List (UInt8 × Model × Instance)) (t : Timers) :
      (xs.foldl disarm t).armings = t.armings := by
    induction xs generalizing t with
    | nil => rfl
    | cons x xs ih => exact ih _
  rw [timers_reset]
  exact hfold n.instances n.timers

theorem queue_reset (h : ∀ a ∈ n.timers.queue, n.hosts a.timer.element a.timer.model) :
    n.reset.timers.queue = [] := by
  apply List.eq_nil_iff_forall_not_mem.mpr
  intro a ha
  obtain ⟨ha, hne⟩ := mem_reset.mp ha
  obtain ⟨i, hi⟩ := hosts_iff.mp (h a ha)
  obtain ⟨h₁, h₂⟩ := hne _ (mem_instances hi)
  obtain ⟨⟨e, m, purpose⟩, d⟩ := a
  cases purpose
  · exact h₁ rfl
  · exact h₂ rfl

theorem get?_reset (n : Node) (e : UInt8) (m : Model) :
    n.reset.get? e m = (n.get? e m).map Instance.reset := by
  simp only [get?, instance?, reset, List.getElem?_map]
  cases n.elements[e.toNat]? <;> simp

theorem shape_reset : n.reset.shape = n.shape := by
  simp only [shape, reset, List.map_map]
  apply List.map_congr_left
  intro el _
  simp [PerModel.map]

theorem Sound.reset (h : n.Sound) : n.reset.Sound where
  config := h.config
  ordered := by
    have hq := queue_reset h.hosted
    refine ⟨?_, ?_, ?_⟩ <;> rw [hq] <;> simp
  hosted := by simp [queue_reset h.hosted]
  typed e m i hi := by
    rw [get?_reset] at hi
    obtain ⟨j, hj, rfl⟩ := Option.map_eq_some_iff.mp hi
    have ht := h.typed e m j hj
    exact ⟨ht.present, ht.present, by simp [Instance.reset, Stepping.none, Stepping.isActive],
      by simp [Instance.reset]⟩
  forgets e m i hi hs := by
    rw [get?_reset] at hi
    obtain ⟨j, hj, rfl⟩ := Option.map_eq_some_iff.mp hi
    exact absurd rfl hs

def loaded (n : Node) (image : Image) : Node :=
  ((n.cancel (transitionTimer image.element image.model)).cancel
    (transactionTimer image.element image.model)).modify image.element image.model fun i =>
      i.load image

theorem watch_loaded {image : Image} (hx : (e, m) ≠ (image.element, image.model)) :
    (n.loaded image).watch e m = n.watch e m := by
  rw [loaded, watch_modify_of_ne hx]
  refine Prod.ext rfl ?_
  have hne : transitionTimer e m ≠ transactionTimer image.element image.model :=
    (transactionTimer_ne _ _ _ _).symm
  exact (Timers.deadline?_cancel_of_ne hne).trans
    (Timers.deadline?_cancel_of_ne (transitionTimer_ne hx))

theorem restore_eq (n : Node) (s : Snapshot) : n.restore s = s.validate.bind fun _ =>
    if n.hosts s.image.element s.image.model then .ok (n.loaded s.image)
    else .error (.unknownModel s.image.element s.image.model) :=
  rfl

theorem restore_cases (n : Node) (s : Snapshot) :
    (∀ n', n.restore s ≠ .ok n') ∧ n.handle (.restore s) = n ∨
      s.validate = .ok () ∧ n.hosts s.image.element s.image.model ∧
      n.restore s = .ok (n.loaded s.image) ∧ n.handle (.restore s) = n.loaded s.image := by
  have hr := restore_eq n s
  cases hv : s.validate with
  | error err =>
    refine .inl ⟨fun n' h => ?_, ?_⟩
    · simp [hr, hv, Except.bind] at h
    · simp [handle, hr, hv, Except.bind, Except.toOption]
  | ok u =>
    cases hh : n.hosts s.image.element s.image.model with
    | false =>
      refine .inl ⟨fun n' h => ?_, ?_⟩
      · simp [hr, hv, hh, Except.bind] at h
      · simp [handle, hr, hv, hh, Except.bind, Except.toOption]
    | true =>
      refine .inr ⟨rfl, rfl, ?_, ?_⟩
      · simp [hr, hv, hh, Except.bind]
      · simp [handle, hr, hv, hh, Except.bind, Except.toOption]

theorem model_of_validate {s : Snapshot} (h : s.validate = .ok ()) :
    s.image.present.model = s.image.model ∧ s.image.target.model = s.image.model := by
  have hnone : ∀ v ∈ s.values, v.model = s.image.model := by
    unfold Snapshot.validate at h
    split at h
    · cases h
    · split at h
      · cases h
      next hany =>
        intro v hv
        by_contra hm
        exact hany (List.any_eq_true.mpr ⟨v, hv, by simp [hm]⟩)
  exact ⟨hnone _ (by simp [Snapshot.values]), hnone _ (by simp [Snapshot.values])⟩

theorem Sound.loaded (h : n.Sound) {s : Snapshot} (hv : s.validate = .ok ()) :
    (n.loaded s.image).Sound where
  config := h.config
  ordered := (h.ordered.cancel _).cancel _
  hosted a ha := by
    have ha := (Timers.mem_cancel.mp (Timers.mem_cancel.mp ha).1).1
    rw [Node.loaded, hosts_congr shape_modify]
    exact h.hosted a ha
  typed e m i hi := by
    rcases get?_modify_eq_some hi with hi | ⟨rfl, rfl, j, -, rfl⟩
    · exact h.typed e m i hi
    · obtain ⟨hp, ht⟩ := model_of_validate hv
      exact ⟨hp, ht, by simp [Instance.load, Instance.reset, Stepping.none, Stepping.isActive],
        by simp [Instance.load, Instance.reset]⟩
  forgets e m i hi hs := by
    by_cases hx : (e, m) = (s.image.element, s.image.model)
    · obtain ⟨rfl, rfl⟩ := Prod.mk.injEq .. ▸ hx
      rw [Node.loaded, get?_modify_self] at hi
      obtain ⟨j, -, rfl⟩ := Option.map_eq_some_iff.mp hi
      exact absurd rfl hs
    · rw [Node.loaded, get?_modify_of_ne hx] at hi
      obtain ⟨d, hd, hle⟩ := h.forgets e m i hi hs
      refine ⟨d, ?_, hle⟩
      have hne : transactionTimer e m ≠ transactionTimer s.image.element s.image.model :=
        fun ht => hx (transactionTimer_inj ht)
      exact (Timers.deadline?_cancel_of_ne hne).trans
        ((Timers.deadline?_cancel_of_ne (transactionTimer_ne _ _ _ _)).trans hd)

end MeshNode.Node
