import MeshNode.Proofs.Transition.TimerConsistency

/-! # Coupled states

A lightness and the state of another model can be bound to each other, each following the other by
its rule. A change of one of them in the name of a client or of the application is answered by an
immediate change of the other in the name of a binding, which goes no further: the one stays as it
is, and the other settles where the two agree.
-/

namespace MeshNode

/-- A lightness and the state of another model that follow one another. -/
structure Coupling where
  lamp : UInt8
  mate : UInt8
  model : Model
  state : BoundState
  rule : Rule
  back : Rule
  /-- Whether the lightness and the other state agree. -/
  fits : Lightness → Value → Prop
  /-- What the way back relies on. -/
  keeps : LightMemory → Prop
  boundState : model.boundState? = some state
  ne_lightness : state ≠ .lightnessActual
  isTransitional : model.isTransitional = true
  follows : ∀ elements l, ∃ w, rule elements mate (.lightness l) = [.bound mate w] ∧
    w.model = model ∧ w.isLegal = true ∧ fits l w
  /-- The lightness follows to where they agree, if its memory is in order. -/
  leads : ∀ elements w i, w.model = model → instance? elements lamp .lightness = some i →
    ∃ l, back elements lamp w = [.bound lamp (.lightness l)] ∧
      (keeps i.light → fits (i.light.clamp l) w)
  keeps_initial : keeps .initial
  keeps_noting : ∀ memory v, keeps memory → keeps (memory.noting v)
  keeps_default : ∀ memory default, keeps memory → keeps { memory with default }

namespace Coupling

variable (c : Coupling)

/-- The binding by which the other state follows the lightness. -/
def forth : Binding Rule := ⟨⟨.lightnessActual, c.state, c.lamp, c.mate⟩, c.rule⟩

/-- The binding by which the lightness follows the other state. -/
def home : Binding Rule := ⟨⟨c.state, .lightnessActual, c.mate, c.lamp⟩, c.back⟩

def bindings : List (Binding Rule) := [c.forth, c.home]

def couple (n : Node) : Node × Registration × Registration :=
  let (n, r) := n.bind c.forth.link c.forth.rule
  let (n, r') := n.bind c.home.link c.home.rule
  (n, r, r')

def IsEnd (e : UInt8) (m : Model) : Prop :=
  e = c.lamp ∧ m = .lightness ∨ e = c.mate ∧ m = c.model

/-- The way back does not rely on the range. -/
def KeepsRanges : Prop :=
  ∀ memory lo hi, LightMemory.isRange lo hi = true → c.keeps memory →
    c.keeps { memory with rangeMin := lo, rangeMax := hi }

/-- The same bindings with nothing asked of what they lead to. -/
def loose : Coupling :=
  { c with
    fits := fun _ _ => True
    keeps := fun _ => True
    follows := fun elements l => by
      obtain ⟨w, hrule, hw, hlegal, -⟩ := c.follows elements l
      exact ⟨w, hrule, hw, hlegal, trivial⟩
    leads := fun elements w i hw hi => by
      obtain ⟨l, hback, -⟩ := c.leads elements w i hw hi
      exact ⟨l, hback, fun _ => trivial⟩
    keeps_initial := trivial
    keeps_noting := fun _ _ _ => trivial
    keeps_default := fun _ _ _ => trivial }

theorem not_isEnd {e : UInt8} {m : Model} (hm : m.isTransitional = false) : ¬ c.IsEnd e m := by
  rintro (⟨-, rfl⟩ | ⟨-, rfl⟩)
  · cases hm
  · rw [c.isTransitional] at hm
    cases hm

theorem model_ne : c.model ≠ .lightness := by
  intro h
  have hstate := c.boundState
  rw [h] at hstate
  exact c.ne_lightness (Option.some.inj hstate).symm

end Coupling

/-- A change that the bindings followed at its start is at its target already, and if asked strictly
the bindings are to follow whatever is in progress. -/
structure Instance.IsReady (strict : Prop) (i : Instance) : Prop where
  heard : strict → 0 < i.remaining ∨ 0 < i.delay → i.source.triggersBindings = true
  resolved : i.edgeResolved = true →
    i.present = i.target ∧ i.stepping.isActive = false ∧ i.motion = none

def Instance.cleared (i : Instance) (target : Value) : Instance :=
  { i with
    remaining := 0
    delay := 0
    stepping := .none
    motion := none
    target := target
    edgeResolved := false }

theorem Instance.isReady_cleared (strict : Prop) (i : Instance) (w : Value) (s : Source)
    (now : Nat) : ((i.cleared w).display w s now).IsReady strict where
  heard _ h := absurd h (by simp [display, cleared])
  resolved h := absurd h (by simp [display, cleared])

theorem Instance.typed_cleared (i : Instance) {w : Value} {m : Model} (hw : w.model = m)
    (s : Source) (now : Nat) : ((i.cleared w).display w s now).Typed m where
  present := hw
  target := hw
  stepping h := absurd h (by simp [display, cleared, Stepping.none, Stepping.isActive])
  motion h := absurd h (by simp [display, cleared])

namespace Node

variable {n n' n'' : Node} {e e' : UInt8} {m m' : Model} {i j : Instance}
  {f : Instance → Instance} {v w : Value} {s : Source} {c : Coupling} {strict : Prop}
  {follow : Follow}

/-! ## Changes of one instance -/

/-- The nodes have the same instances, bindings and configuration. -/
structure Alike (n n' : Node) : Prop where
  elements : n'.elements = n.elements
  config : n'.config = n.config
  bindings : n'.bindings = n.bindings
  depth : n'.depth = n.depth

theorem Tells.alike (h : n.Tells n') : n.Alike n' := by
  obtain ⟨es, rfl, -⟩ := h
  exact ⟨rfl, rfl, rfl, rfl⟩

theorem Alike.get? (h : n.Alike n') (e : UInt8) (m : Model) : n'.get? e m = n.get? e m := by
  rw [Node.get?, Node.get?, h.elements]

/-- From the first node to the second one instance is changed, and nothing else that matters to
others. -/
structure Edits (n n' : Node) (e : UInt8) (m : Model) (i j : Instance) : Prop where
  config : n'.config = n.config
  bindings : n'.bindings = n.bindings
  depth : n'.depth = n.depth
  before : n.get? e m = some i
  after : n'.get? e m = some j
  others : ∀ e' m', (e', m') ≠ (e, m) → n'.get? e' m' = n.get? e' m'

theorem Edits.refl (hi : n.get? e m = some i) : n.Edits n e m i i :=
  ⟨rfl, rfl, rfl, hi, hi, fun _ _ _ => rfl⟩

theorem Edits.modify (h : n.Edits n' e m i j) (f : Instance → Instance) :
    n.Edits (n'.modify e m f) e m i (f j) where
  config := h.config
  bindings := h.bindings
  depth := h.depth
  before := h.before
  after := by rw [get?_modify_self, h.after, Option.map_some]
  others e' m' hx := by rw [get?_modify_of_ne hx, h.others e' m' hx]

theorem Edits.alike (h : n.Edits n' e m i j) (ha : n'.Alike n'') : n.Edits n'' e m i j where
  config := ha.config.trans h.config
  bindings := ha.bindings.trans h.bindings
  depth := ha.depth.trans h.depth
  before := h.before
  after := (ha.get? e m).trans h.after
  others e' m' hx := (ha.get? e' m').trans (h.others e' m' hx)

theorem alike_arm (n : Node) (timer : Timer) (after : Nat) : n.Alike (n.arm timer after) :=
  ⟨rfl, rfl, rfl, rfl⟩

theorem alike_cancel (n : Node) (timer : Timer) : n.Alike (n.cancel timer) := ⟨rfl, rfl, rfl, rfl⟩

theorem alike_note (n : Node) (x : Effect) : n.Alike (n.note x) := ⟨rfl, rfl, rfl, rfl⟩

def finished (n : Node) (e : UInt8) (m : Model) (w : Value) (s : Source) : Node :=
  (n.modify e m (·.cleared w)).display e m w s

theorem settle_eq (hi : n.get? e m = some i) : n.settle follow e m w s =
    ((((if i.edgeResolved then n.finished e m w s
        else (n.finished e m w s).passOn follow e m w s).publish e m).save e m).announce e m) := by
  simp only [settle, hi]
  rfl

theorem Edits.finished (h : n.Edits n' e m i j) (w : Value) (s : Source) :
    n.Edits (n'.finished e m w s) e m i ((j.cleared w).display w s n'.now) :=
  (h.modify (·.cleared w)).modify fun i => i.display w s n'.now

theorem passOn_binding (n : Node) : n.passOn follow e m w .binding = n := rfl

theorem settle_binding_alike (hi : n.get? e m = some i) :
    (n.finished e m w .binding).Alike (n.settle follow e m w .binding) := by
  rw [settle_eq hi, passOn_binding, ite_self]
  exact (tells_report _ e m).alike

theorem program_immediate (hi : n.get? e m = some i) : n.program follow e m w 0 0 s =
    ((n.modify e m fun i =>
      { i with remaining := 0, delay := 0, source := s, target := w }).cancel
        (transitionTimer e m)).settle follow e m w s := by
  simp only [program, hi]
  rfl

theorem start_immediate (hi : n.get? e m = some i) : n.start follow e m w 0 0 s none =
    ((n.modify e m fun j =>
      { j with
        motion := none
        stepping := .plan i.present (confine i w) 0 n.config.stepInterval.toNat
        edgeResolved := false }).note
          (.requested ⟨e, m, confine i w, 0, 0, s⟩ none)).program follow e m
          (confine i w) 0 0 s := by
  simp only [start, hi, ite_self]
  rfl

theorem start_enters (follow : Follow) (hi : n.get? e m = some i) (w : Value) (s : Source) :
    ∃ n₁ k, n.Edits n₁ e m i k ∧ n₁.now = n.now ∧ k.light = i.light ∧ k.edgeResolved = false ∧
      n.start follow e m w 0 0 s none = n₁.settle follow e m (confine i w) s := by
  have hset := ((Edits.refl hi).modify fun j => { j with
    motion := none
    stepping := .plan i.present (confine i w) 0 n.config.stepInterval.toNat
    edgeResolved := false }).alike (alike_note _ (.requested ⟨e, m, confine i w, 0, 0, s⟩ none))
  have hentered := (hset.modify fun j => { j with
    remaining := 0, delay := 0, source := s, target := confine i w }).alike
      (alike_cancel _ (transitionTimer e m))
  refine ⟨_, _, hentered, rfl, rfl, rfl, ?_⟩
  rw [start_immediate hi, program_immediate hset.after]

/-- An immediate change in the name of a binding settles the instance and is not passed on. -/
theorem start_settles (follow : Follow) (hi : n.get? e m = some i) :
    ∃ k : Instance, k.light = i.light ∧ n.Edits (n.start follow e m w 0 0 .binding none) e m i
      ((k.cleared (confine i w)).display (confine i w) .binding n.now) := by
  obtain ⟨n₁, k, he, hnow, hk, -, hstart⟩ := start_enters follow hi w .binding
  have hfinished := he.finished (confine i w) .binding
  rw [hnow] at hfinished
  rw [hstart]
  exact ⟨k, hk, hfinished.alike (settle_binding_alike he.after)⟩

theorem start_edits (follow : Follow) (hi : n.get? e m = some i) :
    ∃ j, n.Edits (n.start follow e m w 0 0 .binding none) e m i j ∧ j.IsReady strict ∧
      j.present = confine i w ∧ j.light = i.light.noting (confine i w) := by
  obtain ⟨k, hk, he⟩ := start_settles (w := w) follow hi
  exact ⟨_, he, Instance.isReady_cleared .., rfl, congrArg (·.noting (confine i w)) hk⟩

/-! ## Following a single binding -/

theorem obey_one {b : Binding Rule} {r : Request}
    (hrule : b.rule n.elements b.link.target v = [r]) :
    obey follow v n b = (n.note (.followed b.link v n.depth)).carryOut follow r := by
  have hrule' : b.rule (n.note (.followed b.link v n.depth)).elements b.link.target v = [r] := hrule
  rw [obey, hrule']
  rfl

theorem carryOut_bound (hi : n.get? e w.model = some i) (hlegal : w.isLegal = true) :
    n.carryOut follow (.bound e w) = n.start follow e w.model w 0 0 .binding none := by
  have hcheck : n.check e w.model w = .success := by
    rw [check, hosts, hi, hlegal]
    simp
  have hcheck' : n.check (Request.bound e w).element (Request.bound e w).model
      (Request.bound e w).value = .success := hcheck
  rw [carryOut, hcheck']
  rfl

/-- A state that one binding follows by one request changes one instance at once. -/
theorem follow_edits {state : BoundState} {b : Binding Rule} (hstate : m.boundState? = some state)
    (hmatch : n.bindings.matching e state = [b]) (hmax : n.depth < n.config.maxBindDepth.toNat)
    (hrule : b.rule n.elements b.link.target v = [.bound e' w]) (hlegal : w.isLegal = true)
    (hi : n.get? e' w.model = some i) :
    ∃ j, n.Edits (n.follow e m v) e' w.model i j ∧ j.IsReady strict ∧ j.present = confine i w ∧
      j.light = i.light.noting (confine i w) := by
  obtain ⟨room, hroom⟩ := Nat.exists_eq_succ_of_ne_zero (Nat.ne_zero_of_lt hmax)
  let deeper : Node := { n with depth := n.depth + 1 }
  let told : Node := deeper.note (.followed b.link v deeper.depth)
  have hfollow : n.follow e m v =
      { told.start (followBindings room) e' w.model w 0 0 .binding none with
        depth := (told.start (followBindings room) e' w.model w 0 0 .binding none).depth - 1 } := by
    have hnot : ¬ ([b] = [] ∨ n.config.maxBindDepth.toNat ≤ n.depth) := by
      rintro (hnil | hle)
      · cases hnil
      · omega
    have hobey : obey (followBindings room) v deeper b =
        told.start (followBindings room) e' w.model w 0 0 .binding none := by
      rw [obey_one (n := deeper) hrule, carryOut_bound (n := told) hi hlegal]
    rw [Node.follow, hroom, followBindings]
    simp only [hstate, hmatch]
    rw [if_neg hnot, ← hobey]
    rfl
  obtain ⟨j, he, hj⟩ := start_edits (n := told) (w := w) (followBindings room) hi
  refine ⟨j, ?_, hj⟩
  rw [hfollow]
  exact ⟨he.config, he.bindings, by rw [he.depth]; rfl, hi, he.after, he.others⟩

/-! ## Nodes with a coupling -/

/-- The node hosts both ends of the coupling, and has no bindings but those. -/
structure HostsCoupling (c : Coupling) (n : Node) : Prop where
  bindings : n.bindings.bindings = [] ∨ n.bindings.bindings = c.bindings
  depth : n.depth = 0
  maxBindDepth : 0 < n.config.maxBindDepth.toNat
  typed : n.Typed
  lamp : ∃ i, n.get? c.lamp .lightness = some i ∧ c.keeps i.light
  mate : ∃ i, n.get? c.mate c.model = some i

/-- The node has the coupling, and every instance but one is ready. -/
structure Tuning (c : Coupling) (strict : Prop) (e : UInt8) (m : Model) (n : Node) : Prop
    extends n.HostsCoupling c where
  others : ∀ e' m' i, (e', m') ≠ (e, m) → n.get? e' m' = some i → i.IsReady strict

/-- The node has the coupling, and every instance is ready. -/
structure Tuned (c : Coupling) (strict : Prop) (n : Node) : Prop extends n.HostsCoupling c where
  ready : ∀ e m i, n.get? e m = some i → i.IsReady strict

def Fits (c : Coupling) (n : Node) : Prop :=
  ∃ l w, n.present? c.lamp .lightness = some (.lightness l) ∧ n.present? c.mate c.model = some w ∧
    c.fits l w

/-- The two states are bound to each other and agree. -/
structure InStep (c : Coupling) (n : Node) : Prop where
  bindings : n.bindings.bindings = c.bindings
  fits : n.Fits c

theorem Tuned.tuning (h : n.Tuned c strict) (e : UInt8) (m : Model) : n.Tuning c strict e m :=
  { h with others := fun e' m' i _ hi => h.ready e' m' i hi }

theorem Tuning.tuned (h : n.Tuning c strict e m) (hi : n.get? e m = some i)
    (hr : i.IsReady strict) : n.Tuned c strict where
  toHostsCoupling := h.toHostsCoupling
  ready e' m' j hj := by
    by_cases hx : (e', m') = (e, m)
    · obtain ⟨rfl, rfl⟩ := Prod.mk.injEq .. ▸ hx
      obtain rfl := Option.some.inj (hi.symm.trans hj)
      exact hr
    · exact h.others e' m' j hx hj

section Edits

variable (he : n.Edits n' e m i j)
include he

theorem HostsCoupling.edits (h : n.HostsCoupling c) (ht : j.Typed m)
    (hl : c.keeps i.light → c.keeps j.light) : n'.HostsCoupling c where
  bindings := by
    rw [he.bindings]
    exact h.bindings
  depth := he.depth.trans h.depth
  maxBindDepth := by
    rw [he.config]
    exact h.maxBindDepth
  typed e' m' k hk := by
    by_cases hx : (e', m') = (e, m)
    · obtain ⟨rfl, rfl⟩ := Prod.mk.injEq .. ▸ hx
      obtain rfl := Option.some.inj (he.after.symm.trans hk)
      exact ht
    · rw [he.others e' m' hx] at hk
      exact h.typed e' m' k hk
  lamp := by
    obtain ⟨k, hk, hkeeps⟩ := h.lamp
    by_cases hx : (c.lamp, Model.lightness) = (e, m)
    · obtain ⟨rfl, rfl⟩ := Prod.mk.injEq .. ▸ hx
      obtain rfl := Option.some.inj (he.before.symm.trans hk)
      exact ⟨j, he.after, hl hkeeps⟩
    · exact ⟨k, (he.others _ _ hx).trans hk, hkeeps⟩
  mate := by
    obtain ⟨k, hk⟩ := h.mate
    by_cases hx : (c.mate, c.model) = (e, m)
    · obtain ⟨rfl, rfl⟩ := Prod.mk.injEq .. ▸ hx
      exact ⟨j, he.after⟩
    · exact ⟨k, (he.others _ _ hx).trans hk⟩

theorem Tuning.edits (h : n.Tuning c strict e m) (ht : j.Typed m)
    (hl : c.keeps i.light → c.keeps j.light) : n'.Tuning c strict e m where
  toHostsCoupling := h.toHostsCoupling.edits he ht hl
  others e' m' k hx hk := by
    rw [he.others e' m' hx] at hk
    exact h.others e' m' k hx hk

theorem Edits.present?_of_ne (hx : (e', m') ≠ (e, m)) : n'.present? e' m' = n.present? e' m' := by
  rw [present?, present?, he.others e' m' hx]

theorem Edits.present?_self : n'.present? e m = some j.present := by
  rw [present?, he.after, Option.map_some]

theorem Edits.present?_eq (hp : j.present = i.present) (e' : UInt8) (m' : Model) :
    n'.present? e' m' = n.present? e' m' := by
  by_cases hx : (e', m') = (e, m)
  · obtain ⟨rfl, rfl⟩ := Prod.mk.injEq .. ▸ hx
    rw [he.present?_self, present?, he.before, hp, Option.map_some]
  · exact he.present?_of_ne hx

theorem InStep.edits (h : n.InStep c) (hp : j.present = i.present) : n'.InStep c where
  bindings := by rw [he.bindings, h.bindings]
  fits := by
    obtain ⟨l, w, hl, hw, hfits⟩ := h.fits
    exact ⟨l, w, (he.present?_eq hp _ _).trans hl, (he.present?_eq hp _ _).trans hw, hfits⟩

theorem InStep.edits_of_not_isEnd (h : n.InStep c) (hx : ¬ c.IsEnd e m) : n'.InStep c where
  bindings := by rw [he.bindings, h.bindings]
  fits := by
    obtain ⟨l, w, hl, hw, hfits⟩ := h.fits
    refine ⟨l, w, ?_, ?_, hfits⟩
    · refine (he.present?_of_ne ?_).trans hl
      rintro heq
      obtain ⟨rfl, rfl⟩ := Prod.mk.injEq .. ▸ heq
      exact hx (.inl ⟨rfl, rfl⟩)
    · refine (he.present?_of_ne ?_).trans hw
      rintro heq
      obtain ⟨rfl, rfl⟩ := Prod.mk.injEq .. ▸ heq
      exact hx (.inr ⟨rfl, rfl⟩)

end Edits

/-! ## Following an end -/

section Matching

theorem matching_lamp (h : n.bindings.bindings = c.bindings) :
    n.bindings.matching c.lamp .lightnessActual = [c.forth] := by
  simp [BindingTable.matching, h, Coupling.bindings, Coupling.forth, Coupling.home, c.ne_lightness]

theorem matching_mate (h : n.bindings.bindings = c.bindings) :
    n.bindings.matching c.mate c.state = [c.home] := by
  have hne : ¬ BoundState.lightnessActual = c.state := fun heq => c.ne_lightness heq.symm
  simp [BindingTable.matching, h, Coupling.bindings, Coupling.forth, Coupling.home, hne]

theorem matching_eq_nil {state : BoundState} (h : n.bindings.bindings = c.bindings)
    (hstate : m.boundState? = some state) (hx : ¬ c.IsEnd e m) :
    n.bindings.matching e state = [] := by
  have hlamp : ¬ (c.lamp = e ∧ BoundState.lightnessActual = state) := by
    rintro ⟨rfl, rfl⟩
    exact hx (.inl ⟨rfl, boundState?_inj hstate rfl⟩)
  have hmate : ¬ (c.mate = e ∧ c.state = state) := by
    rintro ⟨rfl, rfl⟩
    exact hx (.inr ⟨rfl, boundState?_inj hstate c.boundState⟩)
  simp only [BindingTable.matching, h, Coupling.bindings, Coupling.forth, Coupling.home]
  simp [hlamp, hmate]

end Matching

theorem confine_of_ne (hm : w.model ≠ .lightness) (i : Instance) : confine i w = w := by
  cases w <;> first | rfl | exact absurd rfl hm

theorem Tuning.edits_other (h : n.Tuning c strict e m) {k : Instance} (he : n.Edits n' e' m' k j)
    (hj : j.IsReady strict) (ht : j.Typed m') (hl : c.keeps k.light → c.keeps j.light) :
    n'.Tuning c strict e m where
  toHostsCoupling := h.toHostsCoupling.edits he ht hl
  others e'' m'' k' hx hk := by
    by_cases hx' : (e'', m'') = (e', m')
    · obtain ⟨rfl, rfl⟩ := Prod.mk.injEq .. ▸ hx'
      obtain rfl := Option.some.inj (he.after.symm.trans hk)
      exact hj
    · rw [he.others e'' m'' hx'] at hk
      exact h.others e'' m'' k' hx hk

theorem HostsCoupling.depth_lt (h : n.HostsCoupling c) : n.depth < n.config.maxBindDepth.toNat := by
  rw [h.depth]
  exact h.maxBindDepth

/-- The other state follows the lightness to where the two agree. -/
theorem Tuning.follow_lamp (h : n.Tuning c strict c.lamp .lightness)
    (hb : n.bindings.bindings = c.bindings) (hi : n.get? c.lamp .lightness = some i) :
    (n.follow c.lamp .lightness i.present).Tuning c strict c.lamp .lightness ∧
      (n.follow c.lamp .lightness i.present).get? c.lamp .lightness = some i ∧
      (n.follow c.lamp .lightness i.present).InStep c := by
  have htyped := (evolves_follow n c.lamp .lightness i.present).typed h.typed
  have hstate : Model.lightness.boundState? = some .lightnessActual := rfl
  obtain ⟨l, hl⟩ : ∃ l, i.present = .lightness l := by
    have hmodel := (h.typed _ _ i hi).present
    cases hp : i.present <;> simp_all [Value.model]
  obtain ⟨w, hrule, hw, hlegal, hfits⟩ := c.follows n.elements l
  obtain ⟨k, hk⟩ := h.mate
  have hk' : n.get? c.mate w.model = some k := by rw [hw, hk]
  rw [hl] at htyped ⊢
  obtain ⟨j, he, hj, hjw, hjl⟩ :=
    follow_edits hstate (matching_lamp hb) h.depth_lt hrule hlegal hk'
  rw [hw] at he
  have hne : (c.lamp, Model.lightness) ≠ (c.mate, c.model) := fun heq =>
    c.model_ne (congrArg Prod.snd heq).symm
  have hlamp := (he.others _ _ hne).trans hi
  rw [confine_of_ne (hw ▸ c.model_ne)] at hjw
  refine ⟨h.edits_other he hj (htyped _ _ j he.after) fun hkeeps => ?_, hlamp, ?_⟩
  · rw [hjl]
    exact c.keeps_noting _ _ hkeeps
  · refine ⟨by rw [he.bindings, hb], l, w, ?_, ?_, hfits⟩
    · rw [present?, hlamp, Option.map_some, hl]
    · rw [he.present?_self, hjw]

/-- The lightness follows the other state to where the two agree. -/
theorem Tuning.follow_mate (h : n.Tuning c strict c.mate c.model)
    (hb : n.bindings.bindings = c.bindings) (hi : n.get? c.mate c.model = some i) :
    (n.follow c.mate c.model i.present).Tuning c strict c.mate c.model ∧
      (n.follow c.mate c.model i.present).get? c.mate c.model = some i ∧
      (n.follow c.mate c.model i.present).InStep c := by
  have htyped := (evolves_follow n c.mate c.model i.present).typed h.typed
  obtain ⟨k, hk, hkeeps⟩ := h.lamp
  obtain ⟨l, hrule, hfits⟩ := c.leads n.elements i.present k (h.typed _ _ i hi).present hk
  obtain ⟨j, he, hj, hjw, hjl⟩ :=
    follow_edits c.boundState (matching_mate hb) h.depth_lt hrule rfl hk
  have hne : (c.mate, c.model) ≠ (c.lamp, Model.lightness) := fun heq =>
    c.model_ne (congrArg Prod.snd heq)
  have hmate := (he.others _ _ hne).trans hi
  refine ⟨h.edits_other he hj (htyped _ _ j he.after) fun hkeeps => ?_, hmate, ?_⟩
  · rw [hjl]
    exact c.keeps_noting _ _ hkeeps
  · refine ⟨by rw [he.bindings, hb], k.light.clamp l, i.present, ?_, ?_, hfits hkeeps⟩
    · exact he.present?_self.trans (congrArg some hjw)
    · rw [present?, hmate, Option.map_some]

theorem HostsCoupling.follow_eq (h : n.HostsCoupling c)
    (hx : ¬ (c.IsEnd e m ∧ n.bindings.bindings = c.bindings)) :
    n.follow e m v = n := by
  apply follow_eq_self
  intro state hstate
  rcases h.bindings with hb | hb
  · rw [BindingTable.matching, hb, List.filter_nil]
  · exact matching_eq_nil hb hstate fun he => hx ⟨he, hb⟩

/-- Showing a value and letting the bindings follow it leaves the two states in step. -/
theorem Tuning.show_follow (h : n.Tuning c strict e m) (hi : n.get? e m = some i) (hw : w.model = m)
    (s : Source) :
    ((n.display e m w s).follow e m w).Tuning c strict e m ∧
      ((n.display e m w s).follow e m w).get? e m = some (i.display w s n.now) ∧
      (n.InStep c → ((n.display e m w s).follow e m w).InStep c) := by
  have he : n.Edits (n.display e m w s) e m i (i.display w s n.now) :=
    (Edits.refl hi).modify fun i => i.display w s n.now
  have htyped := h.typed e m i hi
  have hshown : (n.display e m w s).Tuning c strict e m :=
    h.edits he ⟨hw, htyped.target, htyped.stepping, htyped.motion⟩ (c.keeps_noting _ w)
  by_cases hx : c.IsEnd e m ∧ n.bindings.bindings = c.bindings
  · obtain ⟨hend, hb⟩ := hx
    rcases hend with ⟨rfl, rfl⟩ | ⟨rfl, rfl⟩
    · obtain ⟨ht, hget, hstep⟩ := hshown.follow_lamp hb he.after
      exact ⟨ht, hget, fun _ => hstep⟩
    · obtain ⟨ht, hget, hstep⟩ := hshown.follow_mate hb he.after
      exact ⟨ht, hget, fun _ => hstep⟩
  · rw [hshown.follow_eq hx]
    exact ⟨hshown, he.after, fun hstep =>
      hstep.edits_of_not_isEnd he fun hend => hx ⟨hend, hstep.bindings⟩⟩

end Node

end MeshNode
