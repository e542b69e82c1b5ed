import MeshNode.Proofs.Node.Lookup

/-! # What changes of state keep

However requests and bindings run into one another, they leave alone what a node hosts, its
clock and the remembered transactions, they arm timers of hosted instances only and only for
later, and every instance goes on to hold values of its own model.
-/

namespace MeshNode

/-- The instance holds values of its model, and only levels move and only numbers step. -/
structure Instance.Typed (m : Model) (i : Instance) : Prop where
  present : i.present.model = m
  target : i.target.model = m
  stepping : i.stepping.isActive → m = .level ∨ m = .lightness
  motion : i.motion.isSome → m = .level

theorem Instance.Typed.congr {m : Model} {i j : Instance} (ht : i.Typed m)
    (h : j.course = i.course) : j.Typed m := by
  obtain ⟨hp, hg, -, -, -, hs, hm, -⟩ := Course.mk.injEq .. ▸ h
  exact ⟨hp ▸ ht.present, hg ▸ ht.target, hs ▸ ht.stepping, hm ▸ ht.motion⟩

namespace Value

@[simp] theorem model_shift (v : Value) (d : Int) : (v.shift d).model = v.model := by
  cases v <;> rfl

theorem model_of_position? {v : Value} (h : v.position?.isSome) :
    v.model = .level ∨ v.model = .lightness := by
  cases v <;> simp_all [position?, model]

theorem not_isImmediate_of_model {v : Value} (h : v.model = .level ∨ v.model = .lightness) :
    v.isImmediate = false := by
  cases v <;> simp_all [isImmediate, model]

end Value

namespace Stepping

theorem position?_of_plan {a b : Value} {t k : Nat} (h : (plan a b t k).isActive) :
    b.position?.isSome := by
  unfold plan at h
  split at h
  · simp_all
  · simp [isActive, none] at h

theorem isActive_of_next {s : Stepping} (h : s.next.isActive) : s.isActive := by
  have h : 0 < if s.steps = 2 then 0 else s.steps - 1 := of_decide_eq_true h
  apply decide_eq_true
  split at h <;> omega

end Stepping

namespace Node

def Typed (n : Node) : Prop := ∀ e m i, n.get? e m = some i → i.Typed m

/-- What a node keeps while changes of state run. -/
structure Evolves (n n' : Node) : Prop where
  config : n'.config = n.config
  bindings : n'.bindings = n.bindings
  now : n'.now = n.now
  shape : n'.shape = n.shape
  log : n.log <:+ n'.log
  transaction : ∀ e m,
    (n'.get? e m).map Instance.transaction = (n.get? e m).map Instance.transaction
  awaited : ∀ e m reply, n'.awaited? e m = some reply → n.awaited? e m = some reply
  expiry : ∀ e m, n'.timers.deadline? (transactionTimer e m) =
    n.timers.deadline? (transactionTimer e m)
  armings : n.timers.armings <:+ n'.timers.armings
  ordered : n.timers.Ordered → n'.timers.Ordered
  later : 0 < n.config.stepInterval.toNat → ∀ a ∈ n'.timers.queue, a ∈ n.timers.queue ∨
    (n'.timers.WithinClock → n.now < a.deadline) ∧ n.hosts a.timer.element a.timer.model
  typed : n.Typed → n'.Typed

variable {n n' n'' : Node} {e : UInt8} {m : Model} {f : Instance → Instance}

namespace Evolves

theorem refl (n : Node) : n.Evolves n :=
  ⟨rfl, rfl, rfl, rfl, List.suffix_rfl, fun _ _ => rfl, fun _ _ _ => id, fun _ _ => rfl,
    List.suffix_rfl, id, fun _ _ ha => Or.inl ha, id⟩

theorem trans (h : n.Evolves n') (h' : n'.Evolves n'') : n.Evolves n'' where
  config := h'.config.trans h.config
  bindings := h'.bindings.trans h.bindings
  now := h'.now.trans h.now
  shape := h'.shape.trans h.shape
  log := h.log.trans h'.log
  transaction e m := (h'.transaction e m).trans (h.transaction e m)
  awaited e m reply ha := h.awaited e m reply (h'.awaited e m reply ha)
  expiry e m := (h'.expiry e m).trans (h.expiry e m)
  armings := h.armings.trans h'.armings
  ordered o := h'.ordered (h.ordered o)
  later hp a ha := by
    rcases h'.later (h.config ▸ hp) a ha with ha | ⟨hlt, hh⟩
    · exact (h.later hp a ha).imp_right (.imp_left fun hlt hin => hlt (hin.of_suffix h'.armings))
    · rw [h.now] at hlt
      rw [hosts_congr h.shape] at hh
      exact Or.inr ⟨hlt, hh⟩
  typed ht := h'.typed (h.typed ht)

theorem hosts (h : n.Evolves n') (e : UInt8) (m : Model) : n'.hosts e m = n.hosts e m :=
  hosts_congr h.shape e m

end Evolves

theorem Tells.evolves (h : n.Tells n') : n.Evolves n' := by
  obtain ⟨es, rfl, -⟩ := h
  exact { Evolves.refl n with log := List.suffix_append .. }

theorem evolves_note (n : Node) (x : Effect) : n.Evolves (n.note x) :=
  { Evolves.refl n with log := List.suffix_cons .. }

theorem evolves_depth (n : Node) (d : Nat) : n.Evolves { n with depth := d } :=
  { Evolves.refl n with }

theorem evolves_modify (hf : ∀ i, (f i).transaction = i.transaction)
    (hp : ∀ i, (f i).pendingReply = i.pendingReply ∨ (f i).pendingReply = none)
    (ht : ∀ i, i.Typed m → (f i).Typed m) : n.Evolves (n.modify e m f) where
  config := rfl
  bindings := rfl
  now := rfl
  shape := shape_modify
  log := List.suffix_rfl
  transaction e' m' := by
    by_cases hx : (e', m') = (e, m)
    · obtain ⟨rfl, rfl⟩ := Prod.mk.injEq .. ▸ hx
      rw [get?_modify_self, Option.map_map]
      congr 1
      exact funext hf
    · rw [get?_modify_of_ne hx]
  awaited e' m' reply ha := by
    obtain ⟨i, hi, hreply⟩ := Option.bind_eq_some_iff.mp ha
    rcases get?_modify_eq_some hi with hi | ⟨rfl, rfl, j, hj, rfl⟩
    · exact Option.bind_eq_some_iff.mpr ⟨i, hi, hreply⟩
    · rcases hp j with hsame | hnone
      · exact Option.bind_eq_some_iff.mpr ⟨j, hj, hsame.symm.trans hreply⟩
      · cases hreply.symm.trans hnone
  expiry _ _ := rfl
  armings := List.suffix_rfl
  ordered := id
  later _ _ ha := Or.inl ha
  typed hn e' m' i hi := by
    rcases get?_modify_eq_some hi with hi | ⟨rfl, rfl, j, hj, rfl⟩
    · exact hn e' m' i hi
    · exact ht j (hn e' m' j hj)

theorem transactionTimer_ne (e e' : UInt8) (m m' : Model) :
    transactionTimer e' m' ≠ transitionTimer e m := by
  simp [transactionTimer, transitionTimer]

theorem evolves_cancel : n.Evolves (n.cancel (transitionTimer e m)) :=
  { Evolves.refl n with
    expiry := fun e' m' => Timers.deadline?_cancel_of_ne (transactionTimer_ne e e' m m')
    ordered := fun o => o.cancel _
    later := fun _ _ ha => Or.inl (Timers.mem_cancel.mp ha).1 }

theorem evolves_arm {after : Nat} (hh : n.hosts e m)
    (ha : 0 < n.config.stepInterval.toNat → 0 < after) :
    n.Evolves (n.arm (transitionTimer e m) after) :=
  { Evolves.refl n with
    expiry := fun e' m' => Timers.deadline?_arm_of_ne (transactionTimer_ne e e' m m')
    armings := Timers.armings_arm
    ordered := fun o => o.arm _ _
    later := fun hp a hmem => by
      rcases Timers.mem_arm.mp hmem with rfl | ⟨hmem, -⟩
      · refine Or.inr ⟨fun hin => ?_, hh⟩
        exact hin.onClock_armed.symm ▸ Nat.lt_add_of_pos_right (ha hp)
      · exact Or.inl hmem }

@[simp] theorem model_confine (i : Instance) (v : Value) : (confine i v).model = v.model := by
  cases v <;> rfl

/-! ## Requests -/

section Follow

variable {follow : Follow} {v w : Value} {s : Source} {t d : Nat}
  {motion : Option Motion}

theorem evolves_display (hv : v.model = m) : n.Evolves (n.display e m v s) :=
  evolves_modify (fun _ => rfl) (fun _ => .inl rfl) fun _ h => ⟨hv, h.target, h.stepping, h.motion⟩

theorem tells_report (n : Node) (e : UInt8) (m : Model) :
    n.Tells (((n.publish e m).save e m).announce e m) :=
  ((tells_publish n e m).trans (tells_save _ e m)).trans (tells_announce _ e m)

variable (hfollow : ∀ (n : Node) (e : UInt8) (m : Model) (v : Value), n.Evolves (follow n e m v))
include hfollow

theorem evolves_passOn : n.Evolves (passOn follow n e m v s) := by
  unfold passOn
  split
  · exact hfollow n e m v
  · exact .refl n

theorem evolves_settle (ht : w.model = m) :
    n.Evolves (n.settle follow e m w s) := by
  unfold settle
  split
  · exact .refl n
  next i hi =>
    refine .trans ?_ (tells_report _ e m).evolves
    have hset : n.Evolves (n.modify e m fun i =>
        { i with
          remaining := 0, delay := 0, stepping := .none, motion := none, target := w,
          edgeResolved := false }) :=
      evolves_modify (fun _ => rfl) (fun _ => .inl rfl) fun _ h =>
        ⟨h.present, ht, by simp [Stepping.none, Stepping.isActive], by simp⟩
    have hshown := hset.trans (evolves_display (e := e) (s := s) ht)
    split
    · exact hshown
    · exact hshown.trans (evolves_passOn hfollow)

theorem evolves_embark (hh : n.hosts e m) (ht : w.model = m) (hp : 0 < t)
    (stepped : Bool) :
    n.Evolves (n.embark follow e m w t s stepped) := by
  unfold embark
  refine .trans ?_ (tells_announce _ e m).evolves
  generalize hfirst : (if stepped then n.config.stepInterval.toNat else t) = first
  have harm : n.Evolves (n.arm (transitionTimer e m) first) :=
    evolves_arm hh fun hi => by rw [← hfirst]; split <;> assumption
  split
  · have hshown := harm.trans (evolves_display (e := e) (s := s) ht)
    split
    · refine (hshown.trans (hfollow _ e m w)).trans ?_
      refine evolves_modify (fun _ => rfl) (fun _ => .inl rfl) ?_
      exact fun _ h => ⟨h.present, h.target, h.stepping, h.motion⟩
    · exact hshown
  · exact harm

theorem evolves_program (ht : w.model = m) :
    n.Evolves (n.program follow e m w t d s) := by
  unfold program
  split
  · exact .refl n
  next i hi =>
    have hset : n.Evolves (n.modify e m fun i =>
        { i with remaining := t, delay := d, source := s, target := w }) :=
      evolves_modify (fun _ => rfl) (fun _ => .inl rfl) fun _ h =>
        ⟨h.present, ht, h.stepping, h.motion⟩
    have hh : (n.modify e m fun i =>
        { i with remaining := t, delay := d, source := s, target := w }).hosts
          e m := by
      rw [hset.hosts]
      exact hosts_iff.mpr ⟨i, hi⟩
    apply hset.trans
    split
    · refine (evolves_arm hh fun _ => ?_).trans (tells_announce _ e m).evolves
      simp only [TransitionTime.delayMs]
      omega
    · split
      · exact evolves_embark hfollow hh ht ‹_› _
      · exact evolves_cancel.trans (evolves_settle hfollow ht)

theorem evolves_start (hv : v.model = m) (hm : motion.isSome → m = .level) :
    n.Evolves (n.start follow e m v t d s motion) := by
  unfold start
  split
  · exact .refl n
  next i hi =>
    have ht : (confine i v).model = m := by rw [model_confine, hv]
    refine .trans ?_ ((evolves_note _ _).trans (evolves_program hfollow ht))
    refine evolves_modify (fun _ => rfl) (fun _ => .inl rfl) fun j h =>
      ⟨h.present, h.target, fun ha => ?_, hm⟩
    dsimp only at ha
    split at ha
    · simp [Stepping.none, Stepping.isActive] at ha
    · rw [← ht]
      exact Value.model_of_position? (Stepping.position?_of_plan ha)

omit hfollow in
theorem model_of_check {status : Status} (h : n.check e m v = status) (hs : status = .success) :
    v.model = m := by
  rw [hs, check] at h
  split at h
  · split at h
    next hc => exact of_decide_eq_true (Bool.and_eq_true_iff.mp hc).1
    next => cases h
  · cases h

theorem evolves_carryOut (n : Node) (r : Request) : n.Evolves (n.carryOut follow r) := by
  unfold carryOut
  split
  next h => exact evolves_start hfollow (model_of_check h rfl) (by simp)
  next => exact (tells_emit n _).evolves

end Follow

/-! ## Following bindings -/

/-- The relation holds between a node and what becomes of it while bindings are followed, if it
holds between a node and what a single request makes of it. -/
structure ClosedUnderBindings (R : Node → Node → Prop) : Prop where
  refl : ∀ n, R n n
  trans : ∀ {n n' n''}, R n n' → R n' n'' → R n n''
  note : ∀ n link v depth, R n (n.note (.followed link v depth))
  depth : ∀ (n : Node) depth, R n { n with depth }
  carryOut : ∀ {follow : Follow}, (∀ n e m v, R n (follow n e m v)) →
    ∀ n r, R n (n.carryOut follow r)

namespace ClosedUnderBindings

variable {R : Node → Node → Prop} (h : ClosedUnderBindings R)
include h

theorem foldl {α : Type} {f : Node → α → Node} (hf : ∀ n a, R n (f n a)) (as : List α) (n : Node) :
    R n (as.foldl f n) :=
  List.foldlRecOn as f (h.refl n) fun n' hn a _ => h.trans hn (hf n' a)

theorem obey {follow : Follow} (hfollow : ∀ n e m v, R n (follow n e m v)) (v : Value) (n : Node)
    (b : Binding Rule) : R n (obey follow v n b) :=
  h.trans (h.note n b.link v n.depth) (h.foldl (h.carryOut hfollow) _ _)

theorem followBindings (room : Nat) (n : Node) (e : UInt8) (m : Model) (v : Value) :
    R n (followBindings room n e m v) := by
  induction room generalizing n e m v with
  | zero => exact h.refl n
  | succ room ih =>
    rw [Node.followBindings]
    split
    · exact h.refl n
    · dsimp only
      split
      · exact h.refl n
      · exact h.trans (h.trans (h.depth n _) (h.foldl (h.obey ih v) _ _)) (h.depth _ _)

theorem follow (n : Node) (e : UInt8) (m : Model) (v : Value) : R n (n.follow e m v) :=
  h.followBindings _ n e m v

end ClosedUnderBindings

theorem closedUnderBindings_evolves : ClosedUnderBindings Evolves where
  refl := .refl
  trans := .trans
  note n _ _ _ := evolves_note n _
  depth := evolves_depth
  carryOut := evolves_carryOut

theorem evolves_follow (n : Node) (e : UInt8) (m : Model) (v : Value) :
    n.Evolves (n.follow e m v) :=
  closedUnderBindings_evolves.follow n e m v

theorem mem_matching {b : Binding Rule} {state : BoundState}
    (h : b ∈ n.bindings.matching e state) :
    b ∈ n.bindings.bindings ∧ b.link.source = e ∧ b.link.sourceState = state := by
  obtain ⟨hmem, hlink⟩ := List.mem_filter.mp h
  obtain ⟨hsource, hstate⟩ := Bool.and_eq_true_iff.mp hlink
  exact ⟨hmem, of_decide_eq_true hsource, of_decide_eq_true hstate⟩

/-- Following the state of an instance is obeying the bindings of that state one after the other:
what holds of the node and outlasts each of them holds in the end. -/
theorem follow_induct {motive : Node → Prop} {v : Value}
    (hdepth : ∀ (n₁ : Node) depth, motive n₁ → motive { n₁ with depth })
    (hobey : ∀ n₁ room, ∀ b ∈ n.bindings.bindings, b.link.source = e →
      m.boundState? = some b.link.sourceState → motive n₁ →
        motive (obey (followBindings room) v n₁ b))
    (h : motive n) : motive (n.follow e m v) := by
  unfold follow
  cases n.config.maxBindDepth.toNat with
  | zero => exact h
  | succ room =>
    rw [followBindings]
    split
    next => exact h
    next state hstate =>
      dsimp only
      split
      next => exact h
      next =>
        refine hdepth _ _ (List.foldlRecOn _ _ (hdepth n _ h) fun n₁ h₁ b hb => ?_)
        obtain ⟨hmem, hsource, rfl⟩ := mem_matching hb
        exact hobey n₁ room b hmem hsource hstate h₁

theorem follow_eq_self {v : Value}
    (h : ∀ state, m.boundState? = some state → n.bindings.matching e state = []) :
    n.follow e m v = n := by
  rw [follow]
  cases n.config.maxBindDepth.toNat with
  | zero => rfl
  | succ room =>
    rw [followBindings]
    split
    · rfl
    next state hstate =>
      dsimp only
      rw [if_pos (.inl (h state hstate))]

/-! ## Progress -/

theorem evolves_visit {v : Value} {s : Source} (hv : v.model = m) :
    n.Evolves (n.visit e m v s) :=
  (evolves_display hv).trans (evolves_passOn evolves_follow)

section Progress

variable {i : Instance} (hn : n.Typed) (hi : n.get? e m = some i)
include hn hi

theorem evolves_halt : n.Evolves (n.halt e m) := by
  unfold halt
  have hi' : (n.cancel (transitionTimer e m)).get? e m = some i := hi
  simp only [hi']
  apply (evolves_cancel (e := e) (m := m)).trans
  split
  · exact evolves_modify (fun _ => rfl) (fun _ => .inl rfl) fun _ h =>
      ⟨h.present, h.target, h.stepping, by simp⟩
  · refine .trans ?_ (evolves_settle evolves_follow (hn e m i hi).present)
    exact evolves_modify (fun _ => rfl) (fun _ => .inl rfl) fun _ h =>
      ⟨h.present, h.target, h.stepping, h.motion⟩

theorem evolves_stepOn : n.Evolves (n.stepOn e m i) := by
  have ht := hn e m i hi
  unfold stepOn
  dsimp only
  have hstep : n.Evolves (n.modify e m fun i => { i with stepping := i.stepping.next }) :=
    evolves_modify (fun _ => rfl) (fun _ => .inl rfl) fun _ h =>
      ⟨h.present, h.target, fun ha => h.stepping (Stepping.isActive_of_next ha), h.motion⟩
  have hmodel : (i.present.shift i.stepping.increment).model = m := by
    rw [Value.model_shift, ht.present]
  have hshown := hstep.trans (evolves_visit (e := e) (s := i.source) hmodel)
  split
  · exact hshown.trans (evolves_settle evolves_follow ht.target)
  · exact (hshown.trans (evolves_program evolves_follow ht.target)).trans
      (tells_publish _ e m).evolves

theorem evolves_moveOn (motion : Motion) : n.Evolves (n.moveOn e m i motion) := by
  have ht := hn e m i hi
  unfold moveOn
  dsimp only
  split
  · exact evolves_settle evolves_follow ht.target
  · have hmodel : (i.present.shift motion.step).model = m := by
      rw [Value.model_shift, ht.present]
    have hshown := evolves_visit (n := n) (e := e) (s := i.source) hmodel
    exact (hshown.trans (evolves_program evolves_follow ht.target)).trans
      (tells_publish _ e m).evolves

theorem evolves_endDelay : n.Evolves (n.endDelay e m i) := by
  have ht := hn e m i hi
  unfold endDelay
  have hset : n.Evolves (n.modify e m fun i => { i with delay := 0, pendingReply := none }) :=
    evolves_modify (fun _ => rfl) (fun _ => .inr rfl) fun _ h =>
      ⟨h.present, h.target, h.stepping, h.motion⟩
  have hrun := hset.trans (evolves_program (e := e) (t := i.remaining) (d := 0)
    (s := i.source) evolves_follow ht.target)
  dsimp only
  split
  · exact hrun.trans (tells_sendStatus _ e m _ _ _).evolves
  · exact hrun

omit hi in
theorem evolves_onTransition (e : UInt8) (m : Model) : n.Evolves (n.onTransition e m) := by
  unfold onTransition
  split
  · exact .refl n
  next i hi =>
    split
    · exact evolves_endDelay hn hi
    · split
      · split
        · exact evolves_moveOn hn hi _
        · split
          · exact evolves_stepOn hn hi
          · exact evolves_settle evolves_follow (hn e m i hi).target
      · exact .refl n

end Progress

end Node

end MeshNode
