import MeshNode.Proofs.Bindings.HelperRules
import MeshNode.Proofs.Node.CallParts

/-! # Calm bindings

The helpers register rules that ask for immediate changes of other states than the one that they
follow, in the name of a binding. Following such rules never comes back to a state of the kind that
is being followed, and leaves every instance that it changes settled.
-/

namespace MeshNode

/-- The rule asks for immediate changes that are not passed on, of other states than it follows. -/
def Binding.IsCalm (b : Binding Rule) : Prop :=
  ∀ elements : List Element, (∀ e m i, instance? elements e m = some i → i.Typed m) →
    ∀ target v, ∀ r ∈ b.rule elements target v, r.source = .binding ∧ r.transition = 0 ∧
      r.delay = 0 ∧ r.model.boundState? ≠ some b.link.sourceState

theorem Binding.IsHelper.isCalm {b : Binding Rule} (hb : b.IsHelper) : b.IsCalm := by
  intro elements ht target v r hr
  obtain ⟨w, rfl, hreach⟩ := hb.asks hr
  refine ⟨rfl, rfl, rfl, fun (heq : w.model.boundState? = _) => ?_⟩
  obtain ⟨-, htarget | ⟨hsource, -, hmodel⟩⟩ := hreach ht
  · have hsame := Option.some.inj (htarget.symm.trans heq)
    cases hb <;> cases hsame
  · rw [hsource, hmodel] at heq
    cases heq

namespace Node

variable {n n' n₁ n₂ : Node} {e : UInt8} {m : Model} {follow : Follow} {v : Value} {r : Request}

theorem boundState?_inj {m' : Model} {state : BoundState} (h : m.boundState? = some state)
    (h' : m'.boundState? = some state) : m = m' := by
  cases m <;> cases h <;> cases m' <;> cases h' <;> rfl

def IsCalm (n : Node) : Prop := ∀ b ∈ n.bindings.bindings, b.IsCalm

/-- Each instance, but for those of one model, is as it was and took up nothing or has settled. -/
def Calms (m : Model) (n n' : Node) : Prop :=
  ∀ e' m', (n'.requestsFor e' m' = n.requestsFor e' m' ∧ n'.watch e' m' = n.watch e' m') ∨
    m' ≠ m ∧ ∃ (c : Course) (w : Value), n'.watch e' m' = (some (c.finish w), none)

theorem Calms.of_watch (hl : n'.log = n.log) (h : ∀ e' m', n'.watch e' m' = n.watch e' m') :
    n.Calms m n' :=
  fun e' m' => .inl ⟨by rw [requestsFor, requestsFor, hl], h e' m'⟩

theorem Calms.refl (m : Model) (n : Node) : n.Calms m n := .of_watch rfl fun _ _ => rfl

theorem Calms.trans (h : n.Calms m n₁) (h' : n₁.Calms m n₂) : n.Calms m n₂ := by
  intro e' m'
  rcases h' e' m' with ⟨hr', hw'⟩ | hw'
  · rcases h e' m' with ⟨hr, hw⟩ | ⟨hne, c, w, hw⟩
    · exact .inl ⟨hr'.trans hr, hw'.trans hw⟩
    · exact .inr ⟨hne, c, w, hw'.trans hw⟩
  · exact .inr hw'

theorem Calms.tells (h : n.Calms m n₁) (ht : n₁.Tells n₂) : n.Calms m n₂ :=
  h.trans fun e' m' => .inl ⟨ht.requestsFor e' m', ht.watch e' m'⟩

theorem Calms.same (h : n.Calms m n') (e : UInt8) :
    n'.requestsFor e m = n.requestsFor e m ∧ n'.watch e m = n.watch e m := by
  rcases h e m with hsame | ⟨hne, -⟩
  · exact hsame
  · exact absurd rfl hne

theorem Calms.watch (h : n.Calms m n') (e : UInt8) : n'.watch e m = n.watch e m := (h.same e).2

theorem Calms.mark (h : n.Calms m n') (e : UInt8) : (n.mark e m).Calms m (n'.mark e m) := by
  intro e' m'
  by_cases hx : (e', m') = (e, m)
  · obtain ⟨rfl, rfl⟩ := Prod.mk.injEq .. ▸ hx
    exact .inl ⟨(h.same e').1, by rw [watch_mark, watch_mark, h.watch]⟩
  · have hsame (n : Node) : (n.mark e m).watch e' m' = n.watch e' m' := watch_modify_of_ne hx
    rw [hsame, hsame]
    exact h e' m'

/-! ## Following calm bindings -/

theorem calms_start (hv : v.model ≠ m) :
    n.Calms m (n.start follow e v.model v 0 0 .binding none) := by
  cases hi : n.get? e v.model with
  | none =>
    simp only [start, hi]
    exact .refl m n
  | some i =>
    have hquiet : Source.binding.triggersBindings = true →
        ∀ n w, Tells n (follow n e v.model w) := by simp [Source.triggersBindings]
    obtain ⟨n₁, hw, hh⟩ := start_writes (v := v) (t := 0) (d := 0) isAftermath_tells hquiet none hi
    refine .tells (fun e' m' => ?_) hh
    by_cases hx : (e', m') = (e, v.model)
    · obtain ⟨rfl, rfl⟩ := Prod.mk.injEq .. ▸ hx
      have hcourse := hw.onCourse
      simp only [admitted, ite_self, Course.enter_zero, Course.enterTime?_zero,
        Option.map_none] at hcourse
      exact .inr ⟨hv, _, _, hcourse.watch_of_none⟩
    · exact .inl (hw.others e' m' hx)

theorem calms_carryOut (hs : r.source = .binding) (ht : r.transition = 0) (hd : r.delay = 0)
    (hm : r.model ≠ m) : n.Calms m (n.carryOut follow r) := by
  obtain ⟨e, m', v, t, d, s⟩ := r
  obtain ⟨rfl, rfl, rfl⟩ := (⟨hs, ht, hd⟩ : s = .binding ∧ t = 0 ∧ d = 0)
  unfold carryOut
  split
  next h =>
    obtain rfl : v.model = m' := model_of_check h rfl
    exact calms_start hm
  next => exact (Calms.refl m n).tells (tells_emit n _)

theorem calms_foldl {α : Type} {f : Node → α → Node} {as : List α}
    (hf : ∀ n : Node, ∀ a ∈ as, n.Calms m (f n a)) (n : Node) : n.Calms m (as.foldl f n) :=
  List.foldlRecOn (motive := (n.Calms m ·)) as f (.refl m n) fun n' h a ha => h.trans (hf n' a ha)

theorem calms_obey {b : Binding Rule} (hb : b.IsCalm) (hn : n.Typed)
    (hm : m.boundState? = some b.link.sourceState) : n.Calms m (obey follow v n b) := by
  have hnote : n.Calms m (n.note (.followed b.link v n.depth)) :=
    (Calms.refl m n).tells (tells_note (by simp))
  refine hnote.trans (calms_foldl (fun n₁ r hr => ?_) _)
  obtain ⟨hs, ht, hd, hstate⟩ := hb n.elements hn b.link.target v r hr
  exact calms_carryOut hs ht hd fun h => hstate (h ▸ hm)

theorem calms_follow (hn : n.Typed) (hc : n.IsCalm) (e : UInt8) (v : Value) :
    n.Calms m (n.follow e m v) := by
  have hfollowed : (n.follow e m v).Typed ∧ n.Calms m (n.follow e m v) := by
    refine follow_induct (motive := fun n' => n'.Typed ∧ n.Calms m n') ?_ ?_ ⟨hn, .refl m n⟩
    · rintro n₁ depth ⟨hn₁, hc₁⟩
      exact ⟨hn₁, hc₁.trans (.of_watch rfl fun _ _ => rfl)⟩
    · rintro n₁ room b hb - hstate ⟨hn₁, hc₁⟩
      exact ⟨(closedUnderBindings_evolves.obey
        (closedUnderBindings_evolves.followBindings room) v n₁ b).typed hn₁,
        hc₁.trans (calms_obey (hc b hb) hn₁ hstate)⟩
  exact hfollowed.2

theorem typed_of_mark (h : (n.mark e m).Typed) : n.Typed := by
  intro e' m' i hi
  by_cases hx : (e', m') = (e, m)
  · obtain ⟨rfl, rfl⟩ := Prod.mk.injEq .. ▸ hx
    have hget : (n.mark e' m').get? e' m' = some { i with edgeResolved := true } := by
      rw [mark, get?_modify_self, hi]
      rfl
    have ht := h e' m' _ hget
    exact ⟨ht.present, ht.target, ht.stepping, ht.motion⟩
  · exact h e' m' i ((get?_modify_of_ne hx).trans hi)

/-- Bindings that are calm keep calm what follows in the end. -/
theorem isAftermath_calms (m : Model) :
    IsAftermath m fun n n' => n.Typed → n.IsCalm → n.Calms m n' where
  refl n _ _ := .refl m n
  tells h ht hn hc := (h hn hc).tells ht
  mark h e hn hc := (h (typed_of_mark hn) hc).mark e

end Node

end MeshNode
