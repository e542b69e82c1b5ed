import MeshNode.Proofs.Node.NewNodes
import MeshNode.Proofs.Node.ChangeParts

/-! # Bindings end

Rules can ask for anything, and a binding can come back to the state that it follows. Only the depth
puts an end to it: each level of bindings is one deeper than the change that it follows, no rule is
run below the configured depth, and what is followed leaves the depth as it was. So what lies
further down than that has no say in what becomes of a node.
-/

namespace MeshNode.Node

variable {n n' n₁ : Node} {e : UInt8} {m : Model} {F G : Follow} {b b' k room : Nat}
  {P : UInt8 → Model → Prop} {v w : Value} {t d : Nat} {s : Source} {motion : Option Motion}

/-- The configuration and the depth are as they were, and rules were run only above a depth and down
to the configured one. -/
structure Nests (b : Nat) (n n' : Node) : Prop where
  config : n'.config = n.config
  depth : n'.depth = n.depth
  followed : ∀ link v d, .followed link v d ∈ n'.log →
    .followed link v d ∈ n.log ∨ b < d ∧ d ≤ n.config.maxBindDepth.toNat

/-- However bindings are followed, it is done below the depth at which it begins. -/
def Deepens (F : Follow) : Prop := ∀ n e m v, Nests n.depth n (F n e m v)

namespace Nests

theorem refl (b : Nat) (n : Node) : n.Nests b n := ⟨rfl, rfl, fun _ _ _ => .inl⟩

theorem trans (h : n.Nests b n₁) (h' : n₁.Nests b n') : n.Nests b n' where
  config := h'.config.trans h.config
  depth := h'.depth.trans h.depth
  followed link v d hd := by
    rcases h'.followed link v d hd with hd | hd
    · exact h.followed link v d hd
    · exact .inr (h.config ▸ hd)

theorem andThen (h : n.Nests n.depth n₁) (h' : n₁.Nests n₁.depth n') : n.Nests n.depth n' :=
  h.trans (h.depth ▸ h')

theorem mono (h : n.Nests b n') (hb : b' ≤ b) : n.Nests b' n' :=
  ⟨h.config, h.depth, fun link v d hd => (h.followed link v d hd).imp_right fun hd =>
    ⟨Nat.lt_of_le_of_lt hb hd.1, hd.2⟩⟩

theorem foldl {α : Type} {f : Node → α → Node} {as : List α}
    (hf : ∀ n' : Node, n'.depth = n.depth → n'.config = n.config → ∀ a, n'.Nests b (f n' a)) :
    n.Nests b (as.foldl f n) := by
  refine List.foldlRecOn as f (.refl b n) fun n' hn a _ => hn.trans ?_
  exact hf n' hn.depth hn.config a

end Nests

theorem DoneFor.nests (hF : Deepens F) (h : n.DoneFor F P n') : n.Nests n.depth n' := by
  induction h with
  | refl n => exact .refl _ n
  | modify _ f => exact ⟨rfl, rfl, fun _ _ _ => .inl⟩
  | timers ts => exact ⟨rfl, rfl, fun _ _ _ => .inl⟩
  | @note n e m x hx _ =>
    refine ⟨rfl, rfl, fun link v d hd => .inl ?_⟩
    rcases List.mem_cons.mp hd with rfl | hd
    · cases hx
    · exact hd
  | follow _ v => exact hF _ _ _ v
  | trans _ _ ih ih' => exact ih.andThen ih'

theorem nests_carryOut (hF : Deepens F) (n : Node) (r : Request) :
    n.Nests n.depth (n.carryOut F r) :=
  (doneFor_carryOut (P := fun _ _ => True) trivial n).nests hF

theorem nests_obey (hF : Deepens F) (hb : b < n.depth)
    (hmax : n.depth ≤ n.config.maxBindDepth.toNat) (x : Binding Rule) :
    n.Nests b (obey F v n x) := by
  have hnote : n.Nests b (n.note (.followed x.link v n.depth)) := by
    refine ⟨rfl, rfl, fun link w d hd => ?_⟩
    rcases List.mem_cons.mp hd with heq | hd
    · obtain ⟨-, -, rfl⟩ := Effect.followed.injEq .. ▸ heq
      exact .inr ⟨hb, hmax⟩
    · exact .inl hd
  refine hnote.trans (.foldl fun n' hdepth _ r => ?_)
  exact (nests_carryOut hF n' r).mono (hdepth ▸ hb.le)

/-! ## Level by level -/

/-- One level of bindings that follow a value, with a way to follow what changes in turn. -/
def descend (deeper : Follow) : Follow := fun n element model value =>
  match model.boundState? with
  | none => n
  | some state =>
    let bindings := n.bindings.matching element state
    if bindings = [] ∨ n.config.maxBindDepth.toNat ≤ n.depth then n
    else
      let n := bindings.foldl (obey deeper value) { n with depth := n.depth + 1 }
      { n with depth := n.depth - 1 }

theorem followBindings_succ : followBindings (room + 1) = descend (followBindings room) := rfl

theorem deepens_descend (hF : Deepens F) : Deepens (descend F) := by
  intro n e m v
  unfold descend
  split
  · exact .refl _ n
  next state _ =>
    dsimp only
    split
    · exact .refl _ n
    next hroom =>
      have hdeeper : Nests n.depth { n with depth := n.depth + 1 }
          ((n.bindings.matching e state).foldl (obey F v) { n with depth := n.depth + 1 }) := by
        refine .foldl fun n' hdepth hconfig x => nests_obey hF ?_ ?_ x
        · exact hdepth ▸ Nat.lt_succ_self _
        · rw [hdepth, hconfig]
          exact Nat.lt_of_not_le (not_or.mp hroom).2
      exact ⟨hdeeper.config, congrArg (· - 1) hdeeper.depth, hdeeper.followed⟩

theorem deepens_followBindings (room : Nat) : Deepens (followBindings room) := by
  induction room with
  | zero => exact fun n _ _ _ => .refl _ n
  | succ room ih => exact deepens_descend ih

theorem deepens_follow : Deepens follow := fun n => deepens_followBindings _ n

/-! ## What lies below does not matter -/

/-- Two ways to follow bindings are the same at a depth. -/
def SameAt (depth : Nat) (config : Config) (F G : Follow) : Prop :=
  ∀ n : Node, n.depth = depth → n.config = config → F n = G n

section Same

variable (h : SameAt n.depth n.config F G)
include h

theorem passOn_congr : n.passOn F e m w s = n.passOn G e m w s := by
  rw [passOn, passOn, h n rfl rfl]

theorem settle_congr : n.settle F e m w s = n.settle G e m w s := by
  unfold settle
  split
  · rfl
  · dsimp only
    split
    · rfl
    · rw [passOn_congr]
      exact h

theorem embark_congr {stepped : Bool} :
    n.embark F e m w t s stepped = n.embark G e m w t s stepped := by
  unfold embark
  dsimp only
  generalize (if stepped then n.config.stepInterval.toNat else t) = first
  split
  · split
    · have hshown : F ((n.arm (transitionTimer e m) first).display e m w s) = G _ := h _ rfl rfl
      rw [hshown]
    · rfl
  · rfl

theorem program_congr : n.program F e m w t d s = n.program G e m w t d s := by
  unfold program
  split
  · rfl
  · dsimp only
    split
    · rfl
    · split
      · exact embark_congr (n := n.modify e m _) h
      · exact settle_congr h

theorem start_congr : n.start F e m v t d s motion = n.start G e m v t d s motion := by
  unfold start
  split
  · rfl
  · exact program_congr h

theorem carryOut_congr (r : Request) : n.carryOut F r = n.carryOut G r := by
  unfold carryOut
  split
  · exact start_congr h
  · rfl

omit h in
theorem foldl_congr {α : Type} {f g : Node → α → Node} {as : List α}
    (hf : ∀ (n' : Node) a, n'.depth = n.depth → n'.config = n.config → n'.Nests b (f n' a))
    (hfg : ∀ (n' : Node) a, n'.depth = n.depth → n'.config = n.config → f n' a = g n' a) :
    as.foldl f n = as.foldl g n := by
  induction as generalizing n with
  | nil => rfl
  | cons a as ih =>
    have hfirst := hf n a rfl rfl
    rw [List.foldl_cons, List.foldl_cons, ← hfg n a rfl rfl]
    exact ih
      (fun n' a hd hc => hf n' a (hd.trans hfirst.depth) (hc.trans hfirst.config))
      fun n' a hd hc => hfg n' a (hd.trans hfirst.depth) (hc.trans hfirst.config)

theorem obey_congr (hF : Deepens F) (x : Binding Rule) : obey F v n x = obey G v n x := by
  refine foldl_congr (n := n.note _) (b := n.depth) (fun n' r hd _ => ?_) fun n' r hd hc => ?_
  · exact hd ▸ nests_carryOut hF n' r
  · refine carryOut_congr ?_ r
    rw [hd, hc]
    exact h

end Same

theorem descend_congr (hF : Deepens F)
    (h : n.depth < n.config.maxBindDepth.toNat → SameAt (n.depth + 1) n.config F G) :
    descend F n = descend G n := by
  funext e m v
  unfold descend
  split
  · rfl
  · dsimp only
    split
    · rfl
    next hroom =>
      have hlt : n.depth < n.config.maxBindDepth.toNat := Nat.lt_of_not_le (not_or.mp hroom).2
      rw [foldl_congr (n := { n with depth := n.depth + 1 }) (b := n.depth) (g := obey G v)]
      · intro n' x hd hc
        refine nests_obey hF (hd ▸ Nat.lt_succ_self _) ?_ x
        rw [hd, hc]
        exact hlt
      · intro n' x hd hc
        refine obey_congr ?_ hF x
        rw [hd, hc]
        exact h hlt

theorem descend_of_deep (hdeep : n.config.maxBindDepth.toNat ≤ n.depth) :
    descend F n e m v = n := by
  unfold descend
  split
  · rfl
  · exact if_pos (.inr hdeep)

/-- With as many levels as the depth leaves room for, it does not matter what lies below them. -/
theorem iterate_descend (below : Follow) (hk : n.config.maxBindDepth.toNat - n.depth < k)
    (hroom : n.config.maxBindDepth.toNat - n.depth ≤ room) :
    followBindings room n = descend^[k] below n := by
  induction k generalizing n room with
  | zero => exact absurd hk (Nat.not_lt_zero _)
  | succ k ih =>
    rw [Function.iterate_succ_apply']
    cases room with
    | zero =>
      funext e m v
      exact (descend_of_deep (Nat.le_of_sub_eq_zero (Nat.le_zero.mp hroom))).symm
    | succ room =>
      rw [followBindings_succ]
      -- Below the configured depth nothing is followed, so the two need to agree one level deeper
      -- only.
      refine descend_congr (deepens_followBindings room) fun hlt n' hd hc => ?_
      apply ih
      · rw [hd, hc]
        omega
      · rw [hd, hc]
        omega

/-! ## Calls and the passing of time -/

theorem nests_of_doneFor (h : n.DoneFor Node.follow (fun _ _ => True) n') : n.Nests n.depth n' :=
  h.nests deepens_follow

theorem nests_handle (n : Node) (x : Call) : n.Nests n.depth (n.handle x) := by
  have hsame {n' : Node} (hc : n'.config = n.config) (hd : n'.depth = n.depth)
      (hl : n'.log = n.log) : n.Nests n.depth n' := ⟨hc, hd, fun _ _ _ hx => .inl (hl ▸ hx)⟩
  cases x with
  | receive c message => exact nests_of_doneFor (doneFor_receive trivial fun _ _ _ _ _ => trivial)
  | request r => exact nests_carryOut deepens_follow n r
  | query e m => exact nests_of_doneFor (doneFor_emit trivial n rfl rfl)
  | publish e m => exact nests_of_doneFor (doneFor_publish trivial n)
  | publishPeriodically e m =>
    rw [handle, publishPeriodically_fst]
    exact nests_of_doneFor (doneFor_publish trivial n)
  | sendStatus e m dst appKey unicast => exact nests_of_doneFor (doneFor_sendStatus trivial n _ _ _)
  | storeScene e slot => exact nests_of_doneFor (doneFor_storeScene (fun _ => trivial) n slot)
  | recallScene e slot transition =>
    exact nests_of_doneFor (doneFor_recallScene (fun _ => trivial) n _ _)
  | powerUp => exact nests_of_doneFor (doneFor_powerUp (fun _ _ => trivial) n)
  | setLightDefault e l => exact nests_of_doneFor (doneFor_setLightDefault trivial n l)
  | setLightRange e lo hi => exact nests_of_doneFor (doneFor_setLightRange trivial n lo hi)
  | reset => exact hsame rfl rfl rfl
  | restore s =>
    rcases restore_cases n s with ⟨-, hs⟩ | ⟨-, -, -, hs⟩
    · rw [hs]
      exact .refl _ n
    · rw [hs]
      exact hsame rfl rfl rfl
  | listen m name => exact hsame rfl rfl rfl
  | keepSaved e m => exact hsame rfl rfl rfl
  | bind link rule => exact hsame rfl rfl rfl
  | bindLightnessToLevel lightness level => exact hsame rfl rfl rfl
  | bindLightnessToOnOff lightness onOff => exact hsame rfl rfl rfl
  | bindOnOffToOnPowerUp power onOff => exact hsame rfl rfl rfl
  | bindLightnessToOnPowerUp power lightness => exact hsame rfl rfl rfl

theorem nests_onTimer (n : Node) (timer : Timer) : n.Nests n.depth (n.onTimer timer) :=
  nests_of_doneFor (doneFor_onTimer trivial n)

theorem nests_fire (fuel horizon : Nat) (n : Node) : n.Nests n.depth (fire fuel horizon n) := by
  induction fuel generalizing n with
  | zero => exact .refl _ n
  | succ fuel ih =>
    rw [fire]
    split
    · exact .refl _ n
    next timer ts _ =>
      have hpopped : n.Nests n.depth { n with timers := ts } := ⟨rfl, rfl, fun _ _ _ => .inl⟩
      exact (hpopped.andThen (nests_onTimer _ timer)).andThen (ih _)

theorem nests_advanceTo (n : Node) (horizon : Nat) : n.Nests n.depth (n.advanceTo horizon) := by
  have hfire := nests_fire (n.firingBound horizon) horizon n
  rw [advanceTo]
  split
  next => exact hfire.trans ⟨rfl, rfl, fun _ _ _ => .inl⟩
  next => exact hfire

theorem nests_perform (n : Node) (op : Operation) : n.Nests n.depth (n.perform op) := by
  cases op with
  | call x => exact nests_handle n x
  | advance ms => exact nests_advanceTo n _
  | advanceTo horizon => exact nests_advanceTo n horizon

theorem nests_run (n : Node) (ops : List Operation) : n.Nests n.depth (n.run ops) := by
  induction ops generalizing n with
  | nil => exact .refl _ n
  | cons op ops ih => exact (nests_perform n op).andThen (ih (n.perform op))

/-- No binding is being followed between two operations. -/
theorem IsReached.depth (h : n.IsReached) : n.depth = 0 := by
  obtain ⟨n₀, ops, hn₀, rfl⟩ := h
  exact (nests_run n₀ ops).depth.trans hn₀.depth

/-- Whatever bindings a node has, it follows none between two operations, and every operation, every
request of a rule and every timer that fires leaves the depth as it was. No rule is ever run deeper
than is configured, and following bindings ends after as many levels as that leaves room for. -/
theorem following_ends (hn : n.IsBuilt) (ops : List Operation) :
    (n.run ops).depth = 0 ∧
      (∀ link v d, .followed link v d ∈ (n.run ops).log →
        1 ≤ d ∧ d ≤ n.config.maxBindDepth.toNat) ∧
      (∀ (n' : Node) (op : Operation) (r : Request) (timer : Timer),
        (n'.perform op).depth = n'.depth ∧ (n'.carryOut follow r).depth = n'.depth ∧
          (n'.onTimer timer).depth = n'.depth) ∧
      ∀ (n' : Node) (below : Follow) (k : Nat),
        n'.config.maxBindDepth.toNat - n'.depth < k → n'.follow = descend^[k] below n' := by
  have hrun := nests_run n ops
  have hlog : n.log = [] := by
    obtain ⟨p, start, isConnected, hb⟩ := hn
    obtain ⟨-, els, -, rfl⟩ := NodePlan.build_eq hb
    rfl
  refine ⟨hrun.depth.trans hn.depth, fun link v d hd => ?_, fun n' op r timer => ?_,
    fun n' below k hk => ?_⟩
  · rcases hrun.followed link v d hd with hold | ⟨hlt, hle⟩
    · simp [hlog] at hold
    · exact ⟨Nat.lt_of_le_of_lt (Nat.zero_le _) hlt, hle⟩
  · exact ⟨(nests_perform n' op).depth, (nests_carryOut deepens_follow n' r).depth,
      (nests_onTimer n' timer).depth⟩
  · exact iterate_descend below hk (Nat.sub_le _ _)

/-- A level that follows itself, and asks each time for the same value in the name of a client, is
followed down to the second level. -/
theorem following_ends_soloLevel :
    let n := soloLevel.run [.call (.bind ⟨.level, .level, 0, 0⟩ (.always (.level 5) 0 0 .client)),
      .call (.request (.application 0 (.level 7) 0 0))]
    n.depth = 0 ∧ .followed ⟨.level, .level, 0, 0⟩ (.level 5) 2 ∈ n.log ∧
      ∀ link v d, .followed link v d ∈ n.log → 1 ≤ d ∧ d ≤ 2 := by
  intro n
  obtain ⟨hdepth, hfollowed, -⟩ := following_ends isBuilt_soloLevel
    [.call (.bind ⟨.level, .level, 0, 0⟩ (.always (.level 5) 0 0 .client)),
      .call (.request (.application 0 (.level 7) 0 0))]
  exact ⟨hdepth, by decide +kernel, hfollowed⟩

end MeshNode.Node
