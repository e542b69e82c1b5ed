import MeshNode.Node.Build
import MeshNode.Proofs.Node.Runs

/-! # Nodes as they are built

A plan that can be built makes a node without bindings or timers whose instances are all idle.
-/

namespace MeshNode

def Course.fresh (v : Value) : Course := ⟨v, v, 0, 0, .application, .none, none, false⟩

def Instance.IsFresh (m : Model) (i : Instance) : Prop :=
  i.transaction = .none ∧ ∃ v : Value, v.model = m ∧ i.course = .fresh v

def Element.All (P : Model → Instance → Prop) (el : Element) : Prop :=
  ∀ m i, el.get m = some i → P m i

/-- New instances have the property, whatever value they start from and whether they are saved. -/
structure HoldsOfNew (P : Model → Instance → Prop) : Prop where
  new : ∀ m sceneSlots historyLimit, P m (.new m sceneSlots historyLimit)
  value : ∀ v i, P v.model i → P v.model { i with present := v, target := v }
  saved : ∀ m i, P m i → P m { i with isSaved := true }

/-- New instances of a configured node have the property, whatever legal value they start from and
whether they are saved. -/
structure HoldsOfPlanned (config : Config) (P : Model → Instance → Prop) : Prop where
  new : ∀ m, P m (.new m config.sceneSlots.toNat config.historyLimit)
  value : ∀ v i, v.isLegal = true → P v.model i → P v.model { i with present := v, target := v }
  saved : ∀ m i, P m i → P m { i with isSaved := true }

theorem HoldsOfNew.planned {P : Model → Instance → Prop} (h : HoldsOfNew P) (config : Config) :
    HoldsOfPlanned config P :=
  ⟨fun m => h.new m _ _, fun v i _ => h.value v i, h.saved⟩

theorem holdsOfNew_isFresh : HoldsOfNew fun m i => i.IsFresh m where
  new m _ _ := ⟨rfl, .initial m, by cases m <;> rfl, rfl⟩
  value v i h := by
    obtain ⟨ht, w, -, hc⟩ := h
    exact ⟨ht, v, rfl, congrArg (fun c : Course => { c with present := v, target := v }) hc⟩
  saved _ _ h := h

theorem foldlM_ok {α β ε : Type} {P : β → Prop} {f : β → α → Except ε β}
    (hf : ∀ b a b', P b → f b a = .ok b' → P b') {as : List α} {b b' : β} (hb : P b)
    (h : as.foldlM f b = .ok b') : P b' := by
  induction as generalizing b with
  | nil =>
    obtain rfl : b = b' := by simpa [pure, Except.pure] using h
    exact hb
  | cons a as ih =>
    rw [List.foldlM_cons] at h
    cases ha : f b a with
    | error err => simp [ha, bind, Except.bind] at h
    | ok b₁ =>
      rw [ha] at h
      exact ih (hf b a b₁ hb ha) h

namespace ElementPlan

variable {P : Model → Instance → Prop} {config : Config} {index : UInt8} {el el' : Element}

theorem all_set {m : Model} {i : Instance} (hel : el.All P) (hi : P m i) :
    Element.All P (el.set m (some i)) := by
  intro m' j hj
  rw [PerModel.get_set] at hj
  split at hj
  next hm =>
    obtain rfl : i = j := by simpa using hj
    exact hm ▸ hi
  next => exact hel m' j hj

theorem all_empty : Element.All P .empty := by
  intro m i hi
  simp [Element.empty] at hi

variable (hP : HoldsOfPlanned config P)
include hP

theorem all_place {m : Model} (hel : el.All P) (h : place config index el m = .ok el') :
    el'.All P := by
  unfold place at h
  split at h
  · cases h
  · obtain rfl := Except.ok.inj h
    exact all_set hel (hP.new m)

theorem all_initialise {v : Value} (hel : el.All P) (h : initialise index el v = .ok el') :
    el'.All P := by
  unfold initialise at h
  split at h
  next hv =>
    split at h
    next i hi =>
      obtain rfl := Except.ok.inj h
      exact all_set hel (hP.value v i hv (hel v.model i hi))
    next => cases h
  next => cases h

theorem all_keepSaved {m : Model} (hel : el.All P) (h : keepSaved index el m = .ok el') :
    el'.All P := by
  unfold keepSaved at h
  split at h
  next i hi =>
    obtain rfl := Except.ok.inj h
    exact all_set hel (hP.saved m i (hel m i hi))
  next => cases h

theorem all_build {p : ElementPlan} (h : p.build config index = .ok el) : el.All P := by
  unfold build at h
  split at h
  · cases h
  · cases h₁ : p.models.foldlM (place config index) Element.empty with
    | error err => simp [h₁, bind, Except.bind] at h
    | ok e₁ =>
      have hf₁ := foldlM_ok (fun _ _ _ => all_place hP) all_empty h₁
      cases h₂ : p.initial.foldlM (initialise index) e₁ with
      | error err => simp [h₁, h₂, bind, Except.bind] at h
      | ok e₂ =>
        have hf₂ := foldlM_ok (fun _ _ _ => all_initialise hP) hf₁ h₂
        simp only [h₁, h₂, bind, Except.bind] at h
        exact foldlM_ok (fun _ _ _ => all_keepSaved hP) hf₂ h

end ElementPlan

namespace NodePlan

variable {p : NodePlan} {ts : Timers} {isConnected : Bool} {n : Node}

theorem all_buildElements {P : Model → Instance → Prop} {config : Config}
    (hP : HoldsOfPlanned config P) {ps : List ElementPlan} {k : Nat} {els : List Element}
    (h : buildElements config k ps = .ok els) :
    els.length = ps.length ∧ ∀ el ∈ els, el.All P := by
  induction ps generalizing k els with
  | nil =>
    obtain rfl := Except.ok.inj h
    simp
  | cons p ps ih =>
    rw [buildElements] at h
    cases h₁ : p.build config (UInt8.ofNat k) with
    | error err => simp [h₁, bind, Except.bind] at h
    | ok el =>
      cases h₂ : buildElements config (k + 1) ps with
      | error err => simp [h₁, h₂, bind, Except.bind] at h
      | ok els' =>
        obtain rfl : el :: els' = els := by
          simpa [h₁, h₂, bind, Except.bind, pure, Except.pure] using h
        obtain ⟨hlen, hall⟩ := ih h₂
        exact ⟨congrArg (· + 1) hlen, List.forall_mem_cons.mpr ⟨ElementPlan.all_build hP h₁, hall⟩⟩

theorem build_eq (h : p.build ts isConnected = .ok n) :
    p.config.problems = [] ∧ ∃ els, buildElements p.config 0 p.elements = .ok els ∧
      n = ⟨p.config, els, .withCapacity p.config.bindingCapacity.toNat, ts, .none, isConnected, 0,
        []⟩ := by
  unfold build Config.checked at h
  split at h
  next hproblems =>
    simp only [Except.mapError, bind, Except.bind, pure, Except.pure] at h
    split at h
    · cases h
    · split at h
      · cases h
      · cases hels : buildElements p.config 0 p.elements with
        | error err => simp [hels] at h
        | ok els =>
          rw [hels] at h
          exact ⟨hproblems, els, rfl, (Except.ok.inj h).symm⟩
  next => cases h

theorem length_le_of_build (h : p.build ts isConnected = .ok n) :
    p.elements.length ≤ maxElements := by
  unfold build Config.checked at h
  split at h
  · simp only [Except.mapError, bind, Except.bind] at h
    split at h
    · cases h
    · split at h
      · cases h
      next hlen => exact Nat.not_lt.mp hlen
  · cases h

end NodePlan

namespace Node

variable {n : Node}

def IsBuilt (n : Node) : Prop :=
  ∃ (p : NodePlan) (start : Nat) (isConnected : Bool),
    p.build (.startingAt start) isConnected = .ok n

theorem IsBuilt.holdsPlanned {P : Model → Instance → Prop} (h : n.IsBuilt)
    (hP : HoldsOfPlanned n.config P) {e : UInt8} {m : Model} {i : Instance}
    (hi : n.get? e m = some i) : P m i := by
  obtain ⟨p, start, isConnected, hb⟩ := h
  obtain ⟨-, els, hels, rfl⟩ := NodePlan.build_eq hb
  obtain ⟨el, hel, hi⟩ := Option.bind_eq_some_iff.mp hi
  exact (NodePlan.all_buildElements hP hels).2 el (List.mem_of_getElem? hel) m i hi

theorem IsBuilt.holds {P : Model → Instance → Prop} (h : n.IsBuilt) (hP : HoldsOfNew P) {e : UInt8}
    {m : Model} {i : Instance} (hi : n.get? e m = some i) : P m i :=
  h.holdsPlanned (hP.planned n.config) hi

theorem IsBuilt.length_elements (h : n.IsBuilt) :
    n.elements.length ≤ NodePlan.maxElements := by
  obtain ⟨p, start, isConnected, hb⟩ := h
  have hlen := NodePlan.length_le_of_build hb
  obtain ⟨-, els, hels, rfl⟩ := NodePlan.build_eq hb
  have hall := NodePlan.all_buildElements (holdsOfNew_isFresh.planned p.config) hels
  exact hall.1.trans_le hlen

theorem IsBuilt.isFresh (h : n.IsBuilt) {e : UInt8} {m : Model} {i : Instance}
    (hi : n.get? e m = some i) : i.IsFresh m :=
  h.holds holdsOfNew_isFresh hi

theorem IsBuilt.queue (h : n.IsBuilt) : n.timers.queue = [] := by
  obtain ⟨p, start, isConnected, hb⟩ := h
  obtain ⟨-, els, -, rfl⟩ := NodePlan.build_eq hb
  rfl

theorem IsBuilt.bindings (h : n.IsBuilt) : n.bindings.bindings = [] := by
  obtain ⟨p, start, isConnected, hb⟩ := h
  obtain ⟨-, els, -, rfl⟩ := NodePlan.build_eq hb
  rfl

theorem IsBuilt.depth (h : n.IsBuilt) : n.depth = 0 := by
  obtain ⟨p, start, isConnected, hb⟩ := h
  obtain ⟨-, els, -, rfl⟩ := NodePlan.build_eq hb
  rfl

theorem IsBuilt.log (h : n.IsBuilt) : n.log = [] := by
  obtain ⟨p, start, isConnected, hb⟩ := h
  obtain ⟨-, els, -, rfl⟩ := NodePlan.build_eq hb
  rfl

theorem IsBuilt.atRest (h : n.IsBuilt) : n.AtRest := by
  intro _ a ha
  simp [h.queue] at ha

theorem IsBuilt.sound (h : n.IsBuilt) : n.Sound where
  config := by
    obtain ⟨p, start, isConnected, hb⟩ := h
    obtain ⟨hc, els, -, rfl⟩ := NodePlan.build_eq hb
    exact hc
  ordered := by
    obtain ⟨p, start, isConnected, hb⟩ := h
    obtain ⟨-, els, -, rfl⟩ := NodePlan.build_eq hb
    exact Timers.ordered_startingAt start
  hosted := by simp [h.queue]
  typed e m i hi := by
    obtain ⟨-, v, rfl, hc⟩ := h.isFresh hi
    obtain ⟨hp, ht, -, -, -, hs, hm, -⟩ := Course.mk.injEq .. ▸ hc
    exact ⟨by rw [hp], by rw [ht], by simp [hs, Stepping.none, Stepping.isActive], by simp [hm]⟩
  forgets e m i hi hs := by
    rw [(h.isFresh hi).1] at hs
    exact absurd rfl hs

/-- The node can be met between two operations. -/
def IsReached (n : Node) : Prop := ∃ (n₀ : Node) (ops : List Operation), n₀.IsBuilt ∧ n = n₀.run ops

theorem IsReached.sound (h : n.IsReached) : n.Sound := by
  obtain ⟨n₀, ops, hn₀, rfl⟩ := h
  exact hn₀.sound.run ops

theorem IsReached.atRest (h : n.IsReached) : n.AtRest := by
  obtain ⟨n₀, ops, hn₀, rfl⟩ := h
  exact hn₀.atRest.run hn₀.sound ops

/-- The node can be met between two steps. -/
def Arises (n : Node) : Prop := ∃ n₀ : Node, n₀.IsBuilt ∧ Steps (fun _ _ => True) n₀ n

theorem Arises.sound (h : n.Arises) : n.Sound := by
  obtain ⟨n₀, hn₀, hs⟩ := h
  exact hn₀.sound.steps hs

def soloLevel : Node :=
  ⟨{}, [Element.empty.set .level (some (.new .level 16 32))], .withCapacity 30,
    .startingAt 0, .none,
    false, 0, []⟩

theorem isBuilt_soloLevel : soloLevel.IsBuilt := ⟨⟨{}, [.single .level]⟩, 0, false, rfl⟩

end Node

end MeshNode
