import MeshNode.Proofs.Bindings.Coupling
import MeshNode.Proofs.Bindings.HelperRules

/-! # One binding among many

A value can be followed by many bindings, one after the other. What the rules of the helpers ask for
is done at once and on the element that the binding leads to, so what one binding has done shows in
the end, as long as the others lead elsewhere or keep it up.
-/

namespace MeshNode

/-- What holds before a fold and is kept up to one element, and is turned by that one into what is
kept by the rest. -/
theorem foldl_through {α σ : Type} {f : σ → α → σ} {I J : σ → Prop} {pre post : List α} {a : α}
    {s : σ} (hpre : ∀ b ∈ pre, ∀ s, I s → I (f s b)) (ha : ∀ s, I s → J (f s a))
    (hpost : ∀ b ∈ post, ∀ s, J s → J (f s b)) (h : I s) : J ((pre ++ a :: post).foldl f s) := by
  rw [List.foldl_append, List.foldl_cons]
  have hbefore : I (pre.foldl f s) := List.foldlRecOn pre f h fun s hs b hb => hpre b hb s hs
  exact List.foldlRecOn post f (ha _ hbefore) fun s hs b hb => hpost b hb s hs

/-- The second instance is the first one settled on a value, as far as its range lets it. -/
structure Instance.Settles (i : Instance) (w : Value) (j : Instance) : Prop where
  idle : j.phase = .idle
  present : j.present = Node.confine i w
  light : j.light = i.light.noting (Node.confine i w)

namespace Node

variable {n n₁ n' : Node} {e x : UInt8} {m : Model} {i j : Instance} {v w : Value} {s : Source}
  {F : Follow} {b : Binding Rule}

/-! ## What a binding asks for -/

theorem start_bound (F : Follow) (hi : n.get? e m = some i) (w : Value) :
    ∃ j, n.Edits (n.start F e m w 0 0 .binding none) e m i j ∧ i.Settles w j := by
  obtain ⟨k, hk, he⟩ := start_settles (w := w) F hi
  exact ⟨_, he, rfl, rfl, congrArg (·.noting (confine i w)) hk⟩

theorem bound_cases (F : Follow) (n : Node) (e : UInt8) (w : Value) :
    n.Alike (n.carryOut F (.bound e w)) ∨
      ∃ i j, n.Edits (n.carryOut F (.bound e w)) e w.model i j ∧ i.Settles w j := by
  rw [carryOut]
  split
  · change n.Alike (n.start F e w.model w 0 0 .binding none) ∨
      ∃ i j, n.Edits (n.start F e w.model w 0 0 .binding none) e w.model i j ∧ i.Settles w j
    cases hi : n.get? e w.model with
    | none =>
      simp only [start, hi]
      exact .inl ⟨rfl, rfl, rfl, rfl⟩
    | some i => exact .inr ⟨i, start_bound F hi w⟩
  · exact .inl (tells_emit n _).alike

theorem bound_settles (F : Follow) (hi : n.get? e w.model = some i) (hlegal : w.isLegal = true) :
    ∃ j, n.Edits (n.carryOut F (.bound e w)) e w.model i j ∧ i.Settles w j := by
  rw [carryOut_bound hi hlegal]
  exact start_bound F hi w

/-! ## Other elements -/

/-- From the first node to the second nothing on an element changes, and no binding comes or
goes. -/
structure KeepsElement (x : UInt8) (n n' : Node) : Prop where
  config : n'.config = n.config
  bindings : n'.bindings = n.bindings
  get? : ∀ m, n'.get? x m = n.get? x m

theorem KeepsElement.refl (x : UInt8) (n : Node) : n.KeepsElement x n := ⟨rfl, rfl, fun _ => rfl⟩

theorem KeepsElement.trans (h : n.KeepsElement x n₁) (h' : n₁.KeepsElement x n') :
    n.KeepsElement x n' where
  config := h'.config.trans h.config
  bindings := h'.bindings.trans h.bindings
  get? m := (h'.get? m).trans (h.get? m)

theorem Alike.keepsElement (h : n.Alike n') (x : UInt8) : n.KeepsElement x n' :=
  ⟨h.config, h.bindings, h.get? x⟩

theorem Edits.keepsElement (h : n.Edits n' e m i j) (hx : x ≠ e) : n.KeepsElement x n' where
  config := h.config
  bindings := h.bindings
  get? m' := h.others x m' fun heq => hx (congrArg Prod.fst heq)

theorem keepsElement_bound (F : Follow) (hx : x ≠ e) (n : Node) (w : Value) :
    n.KeepsElement x (n.carryOut F (.bound e w)) := by
  rcases bound_cases F n e w with ha | ⟨i, j, he, -⟩
  · exact ha.keepsElement x
  · exact he.keepsElement hx

theorem keepsElement_obey (hb : b.IsHelper) (hx : x ≠ b.link.target) (n : Node) :
    n.KeepsElement x (obey F v n b) := by
  have hnote := (alike_note n (.followed b.link v n.depth)).keepsElement x
  refine hnote.trans ?_
  refine List.foldlRecOn (motive := fun n' => KeepsElement x _ n') _ _ (.refl x _)
    fun n' h r hr => ?_
  obtain ⟨w, rfl, -⟩ := hb.asks hr
  exact h.trans (keepsElement_bound F hx n' w)

theorem keepsElement_follow (h : ∀ b ∈ n.bindings.bindings, b.IsHelper ∧
      (b.link.StartsAt e m → x ≠ b.link.target)) (v : Value) :
    n.KeepsElement x (n.follow e m v) := by
  refine follow_induct (fun n₁ depth h₁ => h₁.trans ⟨rfl, rfl, fun _ => rfl⟩) ?_ (.refl x n)
  intro n₁ room b hb hsource hstate h₁
  obtain ⟨hhelper, hx⟩ := h b hb
  exact h₁.trans (keepsElement_obey hhelper (hx ⟨hsource, hstate⟩) n₁)

/-! ## The same element -/

/-- What one binding makes of a node shows once all bindings have been obeyed, if those before it
keep what it needs and those after it keep what it has done. -/
theorem follow_through {state : BoundState} {pre post : List (Binding Rule)} {I J : Node → Prop}
    (hstate : m.boundState? = some state)
    (hmatch : n.bindings.matching e state = pre ++ b :: post)
    (hmax : n.depth < n.config.maxBindDepth.toNat)
    (hI : ∀ depth, I n → I { n with depth }) (hJ : ∀ n₁ depth, J n₁ → J { n₁ with depth })
    (hpre : ∀ F, ∀ b' ∈ pre, ∀ n₁, I n₁ → I (obey F v n₁ b'))
    (hb : ∀ F n₁, I n₁ → J (obey F v n₁ b))
    (hpost : ∀ F, ∀ b' ∈ post, ∀ n₁, J n₁ → J (obey F v n₁ b')) (h : I n) :
    J (n.follow e m v) := by
  obtain ⟨room, hroom⟩ := Nat.exists_eq_succ_of_ne_zero (Nat.ne_zero_of_lt hmax)
  have hnot : ¬ (n.bindings.matching e state = [] ∨ n.config.maxBindDepth.toNat ≤ n.depth) := by
    rw [hmatch, not_or]
    exact ⟨by simp, Nat.not_le.mpr hmax⟩
  rw [Node.follow, hroom, followBindings]
  simp only [hstate]
  rw [if_neg hnot, hmatch]
  exact hJ _ _ (foldl_through (hpre _) (hb _) (hpost _) (hI _ h))

/-- A change at once in the name of a client or of the application shows the value, and then the
bindings follow it. -/
theorem start_follows (hi : n.get? e m = some i) (hs : s.triggersBindings = true) (w : Value) :
    ∃ n₁ j, n.Edits n₁ e m i j ∧ j.present = confine i w ∧
      (n₁.follow e m (confine i w)).Alike (n.start Node.follow e m w 0 0 s none) := by
  obtain ⟨n₁, k, he, -, -, hedge, hstart⟩ := start_enters Node.follow hi w s
  refine ⟨_, _, he.finished (confine i w) s, rfl, ?_⟩
  rw [hstart, settle_eq he.after, hedge, passOn, if_pos hs]
  exact (tells_report _ e m).alike

end Node

end MeshNode
