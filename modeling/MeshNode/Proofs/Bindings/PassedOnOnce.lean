import MeshNode.Proofs.Node.ChangeInvariants
import MeshNode.Proofs.Effects.Bystanders
import MeshNode.Proofs.Bindings.LampsInStep
import MeshNode.Proofs.Transactions.DeltaOrigins

/-! # Changes are passed on once

What the rules of the helpers ask for is asked in the name of a binding, and such a change is passed
on to nobody. However the bindings are strung together, a change of one instance reaches the targets
of the bindings of its own state and no instance behind them.
-/

namespace MeshNode.Node

variable {n n' n₁ : Node} {e e' : UInt8} {m m' : Model} {table : BindingTable Rule} {v : Value}
  {r : Request} {x : Call} {b : Binding Rule} {F : Follow} {timer : Timer} {ts : Timers}
  {horizon : Nat}

/-! ## Instances that are not reached -/

/-- The instance is as it was, and so are both its timers. -/
structure Untouched (n n' : Node) (e : UInt8) (m : Model) : Prop where
  get? : n'.get? e m = n.get? e m
  deadline? : ∀ purpose, n'.timers.deadline? ⟨e, m, purpose⟩ = n.timers.deadline? ⟨e, m, purpose⟩

theorem Untouched.refl (n : Node) (e : UInt8) (m : Model) : n.Untouched n e m := ⟨rfl, fun _ => rfl⟩

theorem Untouched.trans (h : n.Untouched n₁ e m) (h' : n₁.Untouched n' e m) :
    n.Untouched n' e m :=
  ⟨h'.get?.trans h.get?, fun purpose => (h'.deadline? purpose).trans (h.deadline? purpose)⟩

/-- Under a table of bindings, the instance is left untouched. -/
def Avoids (table : BindingTable Rule) (e : UInt8) (m : Model) (n n' : Node) : Prop :=
  n.bindings = table → n.Typed → n'.bindings = table ∧ n'.Typed ∧ n.Untouched n' e m

theorem Avoids.refl (n : Node) : Avoids table e m n n := fun hb hn => ⟨hb, hn, .refl n e m⟩

theorem Avoids.trans (h : Avoids table e m n n₁) (h' : Avoids table e m n₁ n') :
    Avoids table e m n n' := by
  intro hb hn
  obtain ⟨hb₁, hn₁, hu₁⟩ := h hb hn
  obtain ⟨hb', hn', hu'⟩ := h' hb₁ hn₁
  exact ⟨hb', hn', hu₁.trans hu'⟩

theorem closedUnderChanges_avoids (hx : (e', m') ≠ (e, m)) :
    ClosedUnderChanges (Avoids table e' m') e m where
  refl := .refl
  trans := .trans
  note _ _ hb hn := ⟨hb, hn, rfl, fun _ => rfl⟩
  modify n f hf hb hn := by
    refine ⟨hb, fun e₁ m₁ i hi => ?_, get?_modify_of_ne hx, fun _ => rfl⟩
    rcases get?_modify_eq_some hi with hi | ⟨rfl, rfl, j, hj, rfl⟩
    · exact hn e₁ m₁ i hi
    · exact hf j (hn _ _ j hj)
  arm n purpose after _ hb hn := by
    refine ⟨hb, hn, rfl, fun purpose' => Timers.deadline?_arm_of_ne ?_⟩
    rintro heq
    exact hx (Prod.ext (congrArg Timer.element heq) (congrArg Timer.model heq))
  cancel n purpose hb hn := by
    refine ⟨hb, hn, rfl, fun purpose' => Timers.deadline?_cancel_of_ne ?_⟩
    rintro heq
    exact hx (Prod.ext (congrArg Timer.element heq) (congrArg Timer.model heq))

theorem avoids_foldl {α : Type} {f : Node → α → Node} {as : List α}
    (hf : ∀ n, ∀ a ∈ as, Avoids table e m n (f n a)) (n : Node) :
    Avoids table e m n (as.foldl f n) :=
  List.foldlRecOn as f (.refl n) fun n' h a ha => h.trans (hf n' a ha)

/-- A request of a binding goes no further than the instance that it is made of. -/
theorem avoids_carryOut (hs : r.source = .binding) (hx : (e, m) ≠ (r.element, r.model)) (n : Node) :
    Avoids table e m n (n.carryOut F r) := by
  -- A change in the name of a binding is not followed, so that nothing may as well follow it.
  have hquiet : n.carryOut F r = n.carryOut stay r := carryOut_of_quiet (by rw [hs]; rfl) n
  rw [hquiet]
  exact (closedUnderChanges_avoids hx).carryOut (fun n _ => .refl n) n

theorem avoids_obey (hb : b.IsHelper) (hx : ¬ b.link.Reaches e m) (n : Node) :
    Avoids table e m n (obey F v n b) := by
  intro htable hn
  have hasked : ∀ n₁, ∀ r ∈ b.rule n.elements b.link.target v,
      Avoids table e m n₁ (n₁.carryOut F r) := by
    intro n₁ r hr
    obtain ⟨w, rfl, hreached⟩ := hb.asks hr
    refine avoids_carryOut rfl ?_ n₁
    rintro hown
    obtain ⟨rfl, rfl⟩ := Prod.mk.injEq .. ▸ hown
    exact hx (hreached hn)
  have hnote : Avoids table e m n (n.note (.followed b.link v n.depth)) :=
    fun hb hn => ⟨hb, hn, rfl, fun _ => rfl⟩
  exact hnote.trans (avoids_foldl hasked _) htable hn

/-- Following the state of an instance leaves untouched what the bindings of it do not reach. -/
theorem avoids_follow
    (h : ∀ b ∈ table.bindings, b.IsHelper ∧ (b.link.StartsAt e m → ¬ b.link.Reaches e' m'))
    (n : Node) (v : Value) : Avoids table e' m' n (n.follow e m v) := by
  rintro rfl
  refine follow_induct (motive := Avoids n.bindings e' m' n) (fun n₁ depth h₁ hb hn => ?_)
    (fun n₁ room b hb hsource hstate h₁ => ?_) (.refl n) rfl
  · obtain ⟨hb₁, hn₁, hu⟩ := h₁ hb hn
    exact ⟨hb₁, hn₁, hu.get?, hu.deadline?⟩
  · obtain ⟨hhelper, hreach⟩ := h b hb
    exact h₁.trans (avoids_obey hhelper (hreach ⟨hsource, hstate⟩) n₁)

theorem untouched_popped (hp : n.timers.pop? horizon = some (timer, ts))
    (hx : (e, m) ≠ (timer.element, timer.model)) :
    n.Untouched { n with timers := ts } e m := by
  refine ⟨rfl, fun purpose => Timers.deadline?_pop?_of_ne hp ?_⟩
  rintro rfl
  exact hx rfl

/-- Changes are passed on over one binding at most. A request of an instance, a message to it and a
timer of it that fires leave every other instance untouched, both its timers included, unless a
binding that follows the state of the first reaches it. -/
theorem untouched_unless_reached {n₀ : Node} (hn₀ : n₀.IsBuilt) (hs : Steps HelpersOnly n₀ n)
    (hx : (e', m') ≠ (e, m))
    (hb : ∀ b ∈ n.bindings.bindings, b.link.StartsAt e m → ¬ b.link.Reaches e' m') :
    (∀ r : Request, r.element = e → r.model = m → n.Untouched (n.request r).1 e' m') ∧
      (∀ (c : Envelope) (message : Message), c.element = e → message.model = m →
        n.Untouched (n.receive c message).1 e' m') ∧
      ∀ horizon timer ts, n.timers.pop? horizon = some (timer, ts) → timer.element = e →
        timer.model = m → n.Untouched (({ n with timers := ts } : Node).onTimer timer) e' m' := by
  have h : n.Sound := hn₀.sound.steps hs
  have horigin : n.Originated := hn₀.originated.steps hn₀.sound hs
  have hhelped : ∀ b ∈ n.bindings.bindings, b.IsHelper := hn₀.isHelper hs
  have hfollow : ∀ n₁ v, Avoids n.bindings e' m' n₁ (n₁.follow e m v) :=
    avoids_follow fun b hmem => ⟨hhelped b hmem, hb b hmem⟩
  refine ⟨?_, ?_, ?_⟩
  · rintro r rfl rfl
    exact ((closedUnderChanges_avoids hx).carryOut hfollow n rfl h.typed).2.2
  · rintro c message rfl rfl
    have hd : ∀ i src tid, n.get? c.element .level = some i →
        (deltaOrigin i src tid).model = .level :=
      fun i src tid hi => model_deltaOrigin h.typed horigin hi src tid
    exact ((closedUnderChanges_avoids hx).receive hfollow h.typed hd rfl h.typed).2.2
  · rintro horizon timer ts hp rfl rfl
    have hpopped : ({ n with timers := ts } : Node).Typed := h.typed
    have hfired := (closedUnderChanges_avoids hx).onTimer hfollow hpopped
    exact (untouched_popped hp hx).trans (hfired rfl hpopped).2.2

/-- A level and a lightness that follow each other, and a switch that follows the lightness: a
change of the level reaches the lightness and not the switch. -/
theorem untouched_unless_reached_lamp :
    let n := lamp.run [.call (.bindLightnessToLevel 0 0), .call (.bindLightnessToOnOff 0 1),
      .call (.request (.application 0 (.level 3000) 3000 0))]
    let r : Request := .application 0 (.level 100) 0 0
    let fired := ({ n with timers := ⟨1000, [], n.timers.armings⟩ } : Node).onTimer
      (transitionTimer 0 .level)
    lamp.IsBuilt ∧ Steps HelpersOnly lamp n ∧
      (∀ b ∈ n.bindings.bindings, b.link.StartsAt 0 .level → ¬ b.link.Reaches 1 .onOff) ∧
      n.Untouched (n.request r).1 1 .onOff ∧
      n.Untouched (n.receive ⟨0, 7, 0, true⟩ (.set .level [16, 39, 1] true)).1 1 .onOff ∧
      n.timers.pop? 1000 = some (transitionTimer 0 .level, ⟨1000, [], n.timers.armings⟩) ∧
      n.Untouched fired 1 .onOff ∧ n.present? 0 .lightness = some (.lightness 0) ∧
      (n.request r).1.present? 0 .lightness = some (.lightness 32868) := by
  intro n r fired
  have hs : Steps HelpersOnly lamp n := by
    refine run_steps (admits_helpersOnly (fun link rule => ?_) lamp)
    simp
  have hlinks : ∀ l ∈ n.bindings.links, l.StartsAt 0 .level → ¬ l.Reaches 1 .onOff := by
    decide +kernel
  have hb : ∀ b ∈ n.bindings.bindings, b.link.StartsAt 0 .level → ¬ b.link.Reaches 1 .onOff :=
    fun b hb => hlinks b.link (List.mem_map_of_mem hb)
  have hp : n.timers.pop? 1000 =
      some (transitionTimer 0 .level, ⟨1000, [], n.timers.armings⟩) := by decide +kernel
  obtain ⟨hrequest, hreceive, hfire⟩ := untouched_unless_reached isBuilt_lamp hs (by decide) hb
  exact ⟨isBuilt_lamp, hs, hb, hrequest r rfl rfl, hreceive _ _ rfl rfl, hp,
    hfire 1000 _ _ hp rfl rfl, by decide +kernel, by decide +kernel⟩

end MeshNode.Node
