import MeshNode.Proofs.Jobs.Moments

/-! # Well-formed instances

Values reach an instance through messages, requests, rules, scenes, interim steps, plans and
snapshots, and only some of these ways check them. Still every instance holds legal values of its
own model at every moment of every run, and a range that is in order, so a lightness can always be
pulled into it.
-/

namespace MeshNode

def Value.IsFor (m : Model) (v : Value) : Prop := v.model = m ∧ v.isLegal = true

instance (m : Model) (v : Value) : Decidable (v.IsFor m) :=
  inferInstanceAs (Decidable (v.model = m ∧ v.isLegal = true))

/-- A lightness pulled to the nearer end of the range. There is no result for a range that is upside
down. -/
def LightMemory.clamp? (memory : LightMemory) (l : Lightness) : Option Lightness :=
  if l = 0 then some l
  else if memory.rangeMax < memory.rangeMin then none
  else some (if l < memory.rangeMin then memory.rangeMin
    else if memory.rangeMax < l then memory.rangeMax else l)

def LightMemory.onValue? (memory : LightMemory) : Option Lightness :=
  memory.clamp? (if memory.default ≠ 0 then memory.default else memory.last)

/-- What holds of an instance of a model on a node with a number of scene slots. -/
structure Instance.WellFormed (m : Model) (slots : Nat) (i : Instance) : Prop where
  present : i.present.IsFor m
  target : i.target.IsFor m
  scenes : ∀ v, some v ∈ i.scenes → v.IsFor m
  deltaOrigin : ∀ v, i.deltaOrigin = some v → v.IsFor m
  slots : i.scenes.length = if m.supportsScenes then slots else 0
  range : 0 < i.light.rangeMin ∧ i.light.rangeMin ≤ i.light.rangeMax
  idle : m.isTransitional = false → i.remaining = 0 ∧ i.delay = 0

/-- A job that can be done at any time. What is reported must be so, and may not be so at another
time. -/
def Job.Proper : Job → Prop
  | .display _ m v _ | .start _ m v .. | .embark _ m v .. | .settle _ m v _ => v.IsFor m
  | .program _ m v t d _ => v.IsFor m ∧ (m.isTransitional = false → t = 0 ∧ d = 0)
  | .reportLight _ status => status ≠ .success
  | .reportStored .. => False
  | _ => True

namespace Value

variable {m : Model} {v : Value}

theorem isLegal_of_model (h : v.model ≠ .defaultTransition) : v.isLegal = true := by
  cases v with
  | defaultTransition => exact absurd rfl h
  | _ => rfl

theorem IsFor.shift (h : v.IsFor m) (d : Int) : (v.shift d).IsFor m := by
  refine ⟨(model_shift v d).trans h.1, ?_⟩
  cases v with
  | defaultTransition => exact h.2
  | _ => rfl

theorem IsFor.confine (h : v.IsFor m) (i : Instance) : (Node.confine i v).IsFor m := by
  refine ⟨(Node.model_confine i v).trans h.1, ?_⟩
  cases v with
  | defaultTransition => exact h.2
  | _ => rfl

theorem isFor_initial (m : Model) : (initial m).IsFor m := by cases m <;> decide

end Value

theorem Params.isLegal_of_defaultTransition {bytes : List UInt8} {t : TransitionTime}
    (h : Params.defaultTransition bytes = .ok t) : (Value.defaultTransition t).isLegal = true := by
  unfold Params.defaultTransition Params.single at h
  split at h
  next b =>
    unfold Params.checkTransition at h
    split at h
    next => cases h
    next hknown =>
      obtain rfl : (⟨b⟩ : TransitionTime) = t := Except.ok.inj h
      simpa [Value.isLegal] using hknown
  next => cases h

namespace LightMemory

variable {memory : LightMemory}

theorem isRange_iff {lo hi : Lightness} : isRange lo hi = true ↔ 0 < lo ∧ lo ≤ hi := by
  simp only [isRange, Bool.and_eq_true, decide_eq_true_eq, UInt16.pos_iff_ne_zero]

theorem clamp?_eq (h : memory.rangeMin ≤ memory.rangeMax) (l : Lightness) :
    memory.clamp? l = some (memory.clamp l) := by
  rw [clamp?, clamp, if_neg (UInt16.not_lt.mpr h)]
  split <;> rfl

theorem onValue?_eq (h : memory.rangeMin ≤ memory.rangeMax) :
    memory.onValue? = some memory.onValue :=
  clamp?_eq h _

end LightMemory

theorem Snapshot.validate_eq_ok {s : Snapshot} : s.validate = .ok () ↔
    s.version = currentVersion ∧ (∀ v ∈ s.values, v.IsFor s.image.model) ∧
      LightMemory.isRange s.image.light.rangeMin s.image.light.rangeMax = true := by
  have hany : (s.values.any fun v => v.model ≠ s.image.model || !v.isLegal) = true ↔
      ¬ ∀ v ∈ s.values, v.IsFor s.image.model := by
    simp only [List.any_eq_true, Value.IsFor, not_forall, exists_prop, not_and_or, ne_eq,
      decide_not, Bool.or_eq_true, Bool.not_eq_true', decide_eq_false_iff_not, Bool.not_eq_true]
  unfold validate
  split
  next h => simp [h]
  next h =>
    split
    next hv => simp [hany.mp hv]
    next hv =>
      have hvalues := Classical.not_not.mp (mt hany.mpr hv)
      have hversion := Classical.not_not.mp h
      split
      next hr => exact iff_of_true rfl ⟨hversion, hvalues, hr⟩
      next hr => simp [hr]

namespace Instance

variable {m : Model} {slots : Nat} {i : Instance} {v : Value} {image : Image}

theorem WellFormed.display (h : i.WellFormed m slots) (hv : v.IsFor m) (s : Source) (now : Nat) :
    (i.display v s now).WellFormed m slots :=
  { h with
    present := hv
    range := by
      have hrange := LightMemory.range_noting i.light v
      simp only [LightMemory.range, Prod.mk.injEq] at hrange
      simp only [Instance.display, hrange]
      exact h.range }

theorem WellFormed.store (h : i.WellFormed m slots) (slot : Nat) :
    { i with scenes := i.scenes.set slot (some i.present) }.WellFormed m slots :=
  { h with
    scenes := fun v hv => by
      rcases List.mem_or_eq_of_mem_set hv with hv | hv
      · exact h.scenes v hv
      · exact Option.some.inj hv ▸ h.present
    slots := List.length_set.trans h.slots }

theorem WellFormed.reset (h : i.WellFormed m slots) : i.reset.WellFormed m slots :=
  { h with
    target := h.present
    deltaOrigin := by simp [Instance.reset]
    idle := fun _ => ⟨rfl, rfl⟩ }

theorem length_overlay {α : Type} (as bs : List α) : (overlay as bs).length = as.length := by
  induction as generalizing bs with
  | nil => rfl
  | cons a as ih =>
    cases bs with
    | nil => rfl
    | cons b bs => exact congrArg (· + 1) (ih bs)

theorem mem_overlay {α : Type} {as bs : List α} {a : α} (h : a ∈ overlay as bs) :
    a ∈ as ∨ a ∈ bs := by
  induction as generalizing bs with
  | nil => exact .inl h
  | cons a' as ih =>
    cases bs with
    | nil => exact .inl h
    | cons b bs =>
      rcases List.mem_cons.mp h with rfl | h
      · exact .inr List.mem_cons_self
      · exact (ih h).imp (List.mem_cons_of_mem _) (List.mem_cons_of_mem _)

theorem WellFormed.load {s : Snapshot} (h : i.WellFormed s.image.model slots)
    (hs : s.validate = .ok ()) : (i.load s.image).WellFormed s.image.model slots := by
  obtain ⟨-, hvalues, hrange⟩ := Snapshot.validate_eq_ok.mp hs
  refine { h.reset with
    present := hvalues s.image.present (by simp [Snapshot.values])
    target := hvalues s.image.target (by simp [Snapshot.values])
    scenes := fun v hv => ?_
    slots := (length_overlay _ _).trans h.slots
    range := LightMemory.isRange_iff.mp hrange }
  rcases mem_overlay hv with hv | hv
  · exact h.scenes v hv
  · exact hvalues v (by simp [Snapshot.values, hv])

theorem wellFormed_new (m : Model) (slots : Nat) (limit : UInt64) :
    (Instance.new m slots limit).WellFormed m slots where
  present := Value.isFor_initial m
  target := Value.isFor_initial m
  scenes v hv := by simp [Instance.new] at hv
  deltaOrigin v hv := by simp [Instance.new] at hv
  slots := List.length_replicate
  range := LightMemory.isRange_iff.mp rfl
  idle _ := ⟨rfl, rfl⟩

end Instance

theorem holdsOfPlanned_wellFormed (config : Config) :
    HoldsOfPlanned config fun m i => i.WellFormed m config.sceneSlots.toNat where
  new m := Instance.wellFormed_new m _ _
  value _ _ hv h := { h with present := ⟨rfl, hv⟩, target := ⟨rfl, hv⟩ }
  saved _ _ h := { h with }

namespace Node

/-- The elements can be told apart, and all instances are well-formed. -/
structure Regular (n : Node) : Prop where
  count : n.elements.length ≤ NodePlan.maxElements
  instances : ∀ e m i, n.get? e m = some i → i.WellFormed m n.config.sceneSlots.toNat

end Node

namespace Job

variable {j : Job} {js js' : List Job}

def AllProper (js : List Job) : Prop := ∀ j ∈ js, j.Proper

@[simp] theorem allProper_nil : AllProper [] := by simp [AllProper]

@[simp] theorem allProper_cons : AllProper (j :: js) ↔ j.Proper ∧ AllProper js :=
  List.forall_mem_cons

@[simp] theorem allProper_append : AllProper (js ++ js') ↔ AllProper js ∧ AllProper js' :=
  List.forall_mem_append

theorem allProper_map {α : Type} {f : α → Job} (hf : ∀ a, (f a).Proper) (as : List α) :
    AllProper (as.map f) := by
  intro j hj
  obtain ⟨a, -, rfl⟩ := List.mem_map.mp hj
  exact hf a

@[simp] theorem allProper_passing (e : UInt8) (m : Model) (v : Value) (s : Source) :
    AllProper (passing e m v s) := by
  unfold passing
  split <;> simp [Proper]

end Job

namespace Node

/-- What a job reports is so. -/
def ReportsTruly (n : Node) : Job → Prop
  | .reportLight e .success => n.hosts e .lightness
  | .reportStored e v =>
    v.model.isTransitional = false ∧ n.present? e v.model = some v
  | _ => False

/-- The jobs that end in a report, while what it says is so. -/
inductive Reports (n : Node) : List Job → Prop where
  | nothing : Reports n []
  | stored {e : UInt8} {v : Value} (s : Source) (hh : n.hosts e v.model) (hv : v.isLegal = true)
    (hm : v.model.isTransitional = false) :
    Reports n [.display e v.model v s, .save e v.model, .reportStored e v]
  | saved (e : UInt8) (m : Model) {j : Job} (h : n.ReportsTruly j) : Reports n [.save e m, j]
  | due {j : Job} (h : n.ReportsTruly j) : Reports n [j]

end Node

namespace Moment

/-- The node is regular and whatever is left to do can be done. -/
structure InOrder (c : Moment) : Prop where
  node : c.node.Regular
  agenda : ∃ js js', c.agenda = js ++ js' ∧ c.node.Reports js ∧ Job.AllProper js'

theorem InOrder.plain {n : Node} {js : List Job} (h : n.Regular) (hjs : Job.AllProper js) :
    InOrder ⟨n, js⟩ :=
  ⟨h, [], js, rfl, .nothing, hjs⟩

theorem InOrder.reporting {n : Node} {e : UInt8} {m : Model} {j : Job} {js : List Job}
    (h : n.Regular) (hj : n.ReportsTruly j) (hjs : Job.AllProper js) :
    InOrder ⟨n, .save e m :: j :: js⟩ :=
  ⟨h, _, js, rfl, .saved e m hj, hjs⟩

end Moment

namespace Node

variable {n n' : Node} {e : UInt8} {m : Model} {f : Instance → Instance} {v : Value} {t d : Nat}
  {s : Source}

theorem Regular.modify (h : n.Regular)
    (hf : ∀ i, n.get? e m = some i → i.WellFormed m n.config.sceneSlots.toNat →
      (f i).WellFormed m n.config.sceneSlots.toNat) : (n.modify e m f).Regular where
  count := (List.length_modify ..).trans_le h.count
  instances e' m' i hi := by
    rcases get?_modify_eq_some hi with hi | ⟨rfl, rfl, j, hj, rfl⟩
    · exact h.instances e' m' i hi
    · exact hf j hj (h.instances _ _ j hj)

theorem Regular.tells (h : n.Regular) (ht : n.Tells n') : n'.Regular := by
  obtain ⟨es, rfl, -⟩ := ht
  exact { h with }

theorem Regular.display (h : n.Regular) (hv : v.IsFor m) : (n.display e m v s).Regular :=
  h.modify fun _ _ hi => hi.display hv s _

theorem Regular.inOrder (h : n.Regular) : (Moment.mk n []).InOrder :=
  .plain h Job.allProper_nil

theorem Regular.isTransitional (h : n.Regular) {i : Instance} (hi : n.get? e m = some i)
    (hbusy : 0 < i.delay ∨ 0 < i.remaining) : m.isTransitional = true := by
  by_contra hm
  have hidle := (h.instances e m i hi).idle (Bool.not_eq_true _ ▸ hm)
  omega

theorem isFor_of_check (h : n.check e m v = .success) : v.IsFor m := by
  unfold check at h
  split at h
  · split at h
    next hv =>
      rw [Bool.and_eq_true, decide_eq_true_eq] at hv
      exact hv
    next => cases h
  · cases h

/-! ## What jobs make of a regular node -/

section Jobs

variable {c : Envelope} {ack : Bool} {i : Instance} {motion : Option Motion} {r : Request}
  (h : n.Regular)
include h

theorem inOrder_follow : (n.beginFollow e m v).InOrder := by
  unfold beginFollow
  split
  · exact h.inOrder
  · dsimp only
    split
    · exact h.inOrder
    · refine .plain { h with } (Job.allProper_append.mpr ⟨Job.allProper_map (fun _ => ?_) _, ?_⟩)
      · trivial
      · simp [Job.Proper]

theorem inOrder_carryOut : (n.beginCarryOut r).InOrder := by
  unfold beginCarryOut
  split
  next hcheck => exact .plain h (by simpa [Job.Proper] using isFor_of_check hcheck)
  next => exact (h.tells (tells_emit n _)).inOrder

theorem inOrder_start (hv : v.IsFor m) : (n.beginStart e m v t d s motion).InOrder := by
  unfold beginStart
  split
  · exact h.inOrder
  next i _ =>
    refine .plain ?_ ?_
    · have hset {stepping : Stepping} : (n.modify e m fun i =>
          { i with motion := motion, stepping := stepping, edgeResolved := false }).Regular :=
        h.modify fun _ _ hi => { hi with }
      exact ⟨hset.count, hset.instances⟩
    · simp only [Job.allProper_cons, Job.allProper_nil, and_true]
      exact ⟨hv.confine i, fun hm => by simp [hm]⟩

theorem inOrder_program (hv : v.IsFor m) (ht : m.isTransitional = false → t = 0 ∧ d = 0) :
    (n.beginProgram e m v t d s).InOrder := by
  unfold beginProgram
  split
  · exact h.inOrder
  · have hset : (n.modify e m fun i =>
        { i with remaining := t, delay := d, source := s, target := v }).Regular :=
      h.modify fun _ _ hi => { hi with target := hv, idle := ht }
    dsimp only
    split
    · exact .plain { hset with } (by simp [Job.Proper])
    · split
      · exact .plain hset (by simpa [Job.Proper] using hv)
      · exact .plain { hset with } (by simpa [Job.Proper] using hv)

theorem inOrder_embark (hv : v.IsFor m) {stepped : Bool} :
    (n.beginEmbark e m v t s stepped).InOrder := by
  refine .plain { h with } ?_
  split
  · split <;> simp [Job.Proper, hv]
  · simp [Job.Proper]

theorem inOrder_settle (hv : v.IsFor m) : (n.beginSettle e m v s).InOrder := by
  unfold beginSettle
  split
  · exact h.inOrder
  · refine .plain ?_ ?_
    · exact h.modify fun _ _ hi => { hi with target := hv, idle := fun _ => ⟨rfl, rfl⟩ }
    · split <;> simp [Job.Proper, hv]

theorem inOrder_halt : (n.beginHalt e m).InOrder := by
  have hstopped : (n.cancel (transitionTimer e m)).Regular := { h with }
  unfold beginHalt
  dsimp only
  split
  · exact hstopped.inOrder
  next i hi =>
    split
    · refine Regular.inOrder ?_
      exact hstopped.modify fun _ _ hi => { hi with }
    · refine .plain ?_ ?_
      · exact hstopped.modify fun _ _ hi => { hi with }
      · simpa [Job.Proper] using (hstopped.instances e m i hi).present

theorem inOrder_answer : (n.beginAnswer c m).InOrder := by
  unfold beginAnswer
  split
  · exact h.inOrder
  · split
    · exact h.inOrder
    · split
      · refine .plain ?_ ?_
        · exact h.modify fun _ _ hi => { hi with }
        · simp [Job.Proper]
      · exact h.inOrder

/-! ### Timers that fire -/

theorem inOrder_endDelay (hi : i.WellFormed m n.config.sceneSlots.toNat)
    (hm : m.isTransitional = true) : (n.beginEndDelay e m i).InOrder := by
  refine .plain ?_ ?_
  · exact h.modify fun _ _ hi => { hi with idle := by simp [hm] }
  · cases i.pendingReply <;> simp [Job.Proper, hi.target, hm]

theorem inOrder_moveOn (hi : i.WellFormed m n.config.sceneSlots.toNat)
    (hm : m.isTransitional = true) {k : Motion} : (n.beginMoveOn e m i k).InOrder := by
  refine .plain h ?_
  split <;> simp [Job.Proper, hi.target, hi.present.shift, hm]

theorem inOrder_stepOn (hi : i.WellFormed m n.config.sceneSlots.toNat)
    (hm : m.isTransitional = true) : (n.beginStepOn e m i).InOrder := by
  refine .plain ?_ ?_
  · exact h.modify fun _ _ hi => { hi with }
  · split <;> simp [Job.Proper, hi.target, hi.present.shift, hm]

theorem inOrder_onTransition : (n.beginOnTransition e m).InOrder := by
  unfold beginOnTransition
  split
  · exact h.inOrder
  next i hi =>
    have hwell := h.instances e m i hi
    split
    next hd => exact inOrder_endDelay h hwell (h.isTransitional hi (.inl hd))
    next =>
      split
      next hr =>
        have hm := h.isTransitional hi (.inr hr)
        split
        · exact inOrder_moveOn h hwell hm
        · split
          · exact inOrder_stepOn h hwell hm
          · exact .plain h (by simpa [Job.Proper] using hwell.target)
      next => exact h.inOrder

theorem inOrder_expire {timer : Timer} : (n.beginExpire timer).InOrder := by
  unfold beginExpire
  split
  · exact inOrder_onTransition h
  · refine Regular.inOrder ?_
    exact h.modify fun _ _ hi => { hi with deltaOrigin := by simp }

/-! ### Messages -/

theorem Regular.remember {k : UInt8} : (n.remember c m k ack).Regular := by
  have hset : (n.modify c.element m fun i =>
      { i with
        transaction := ⟨c.src, k⟩
        pendingReply := if ack then some c.reply else none }).Regular :=
    h.modify fun _ _ hi => { hi with }
  exact { hset with }

theorem inOrder_with {α : Type} {p : Except (List Violation) α} {act : α → Moment}
    (hact : ∀ a, p = .ok a → (act a).InOrder) : (n.beginWith p act).InOrder := by
  unfold beginWith
  split
  next a => exact hact a rfl
  next => exact h.inOrder

theorem inOrder_set {p : Params Value} (hv : p.value.isLegal = true) :
    (n.beginSet c i p ack).InOrder := by
  unfold beginSet
  split
  · exact h.inOrder
  · exact .plain h.remember (by simpa [Job.Proper] using ⟨rfl, hv⟩)

theorem inOrder_delta (hi : n.get? c.element .level = some i) {p : Params Int32} :
    (n.beginDelta c i p ack).InOrder := by
  have hwell := h.instances _ _ i hi
  have horigin : (deltaOrigin i c.src p.tid).IsFor .level := by
    unfold Node.deltaOrigin
    split
    · cases hv : i.deltaOrigin with
      | none => exact hwell.present
      | some v => exact hwell.deltaOrigin v hv
    · exact hwell.present
  refine .plain (Regular.remember ?_) ?_
  · refine h.modify fun j _ hj => { hj with deltaOrigin := fun v hv => ?_ }
    exact Option.some.inj hv ▸ horigin
  · have hshifted : ((deltaOrigin i c.src p.tid).shift p.value.toInt).isLegal = true :=
      (horigin.shift _).2
    simp [Job.Proper, Value.IsFor, hshifted]

theorem inOrder_move {p : Params Level} : (n.beginMove c i p ack).InOrder := by
  unfold beginMove
  split
  · exact h.inOrder
  · have hbound (l : Level) : (Value.level l).IsFor .level := ⟨rfl, rfl⟩
    generalize n.timing c.element p.timing = timing
    refine .plain h.remember ?_
    split
    · simp [Job.Proper]
    · split <;> simp [Job.Proper, hbound]

theorem inOrder_store (hi : n.get? c.element v.model = some i) (hv : v.isLegal = true)
    (hm : v.model.isTransitional = false) : (n.beginStore c v ack).InOrder := by
  have hset : (n.modify c.element v.model fun i =>
      { i with target := v, source := .client }).Regular :=
    h.modify fun _ _ hi => { hi with target := ⟨rfl, hv⟩ }
  refine ⟨hset, _, _, rfl, .stored .client ?_ hv hm, ?_⟩
  · exact (hosts_congr shape_modify _ _).trans (hosts_iff.mpr ⟨i, hi⟩)
  · cases ack <;> simp [Job.Proper]

theorem inOrder_receive {message : Message} : (n.beginReceive c message).InOrder := by
  unfold beginReceive
  split
  · exact h.inOrder
  next i hi =>
    have hset {α : Type} {width : Nat} {decode : Decoder α} {toValue : α → Value} {m : Model}
        {bytes : List UInt8} {ack : Bool} (hm : ∀ a, (toValue a).model = m)
        (hne : m ≠ .defaultTransition) :
        (n.beginWith (setParams width decode toValue bytes) fun p =>
          n.beginSet c i p ack).InOrder :=
      inOrder_with h fun _ hp =>
        inOrder_set h (Value.isLegal_of_model (model_of_setParams hm hp ▸ hne))
    unfold beginProcess
    split
    · exact .plain h (by simp [Job.Proper])
    · exact hset (fun _ => rfl) (by decide)
    · exact hset (fun _ => rfl) (by decide)
    · exact hset (fun _ => rfl) (by decide)
    · exact inOrder_with h fun _ _ => inOrder_store h hi rfl rfl
    · exact inOrder_with h fun _ hp =>
        inOrder_store h hi (Params.isLegal_of_defaultTransition hp) rfl
    · exact inOrder_with h fun _ _ => inOrder_delta h hi
    · exact inOrder_with h fun _ _ => inOrder_move h

/-! ### Calls -/

theorem inOrder_storeScene {slot : Nat} : (n.beginStoreScene e slot).InOrder := by
  unfold beginStoreScene
  split
  · exact h.inOrder
  · split
    · exact h.inOrder
    · refine .plain (List.foldlRecOn _ _ h fun n' hn' m _ => ?_) (Job.allProper_map (fun _ => ?_) _)
      · exact hn'.modify fun i _ hi => hi.store slot
      · trivial

theorem inOrder_recallScene {slot transition : Nat} :
    (n.beginRecallScene e slot transition).InOrder := by
  unfold beginRecallScene
  split
  · exact h.inOrder
  · split
    · exact h.inOrder
    · exact .plain h (Job.allProper_map (f := .carryOut) (fun _ => trivial) _)

theorem inOrder_setLightDefault {l : Lightness} : (n.beginSetLightDefault e l).InOrder := by
  unfold beginSetLightDefault
  split
  next hh =>
    refine .reporting ?_ ?_ Job.allProper_nil
    · exact h.modify fun _ _ hi => { hi with }
    · exact (hosts_congr shape_modify e .lightness).trans hh
  next => exact .plain h (by simp [Job.Proper])

theorem inOrder_setLightRange {lo hi : Lightness} : (n.beginSetLightRange e lo hi).InOrder := by
  unfold beginSetLightRange
  split
  · exact .plain h (by simp [Job.Proper])
  next i hget =>
    split
    next hrange =>
      have hset {memory : LightMemory}
          (hmemory : memory = { i.light with rangeMin := lo, rangeMax := hi }) :
          (n.retuned e memory).Regular :=
        h.modify fun _ _ hj =>
          { hj with range := hmemory ▸ LightMemory.isRange_iff.mp hrange }
      have hh (memory : LightMemory) : (n.retuned e memory).hosts e .lightness :=
        (hosts_congr shape_modify e .lightness).trans (hosts_iff.mpr ⟨i, hget⟩)
      cases i.settled
      all_goals
        dsimp only
        split
        · exact .reporting (hset rfl) (hh _) Job.allProper_nil
        · exact .plain (hset rfl) (by simp [Job.Proper])
    next => exact .plain h (by simp [Job.Proper])

theorem Regular.reset : n.reset.Regular where
  count := (List.length_map ..).trans_le h.count
  instances e m i hi := by
    rw [get?_reset] at hi
    obtain ⟨j, hj, rfl⟩ := Option.map_eq_some_iff.mp hi
    exact (h.instances e m j hj).reset

theorem Regular.restore (s : Snapshot) : (n.handle (.restore s)).Regular := by
  rcases restore_cases n s with ⟨-, hs⟩ | ⟨hv, -, -, hs⟩
  · rwa [hs]
  · rw [hs]
    have hstopped : ((n.cancel (transitionTimer s.image.element s.image.model)).cancel
        (transactionTimer s.image.element s.image.model)).Regular := { h with }
    exact hstopped.modify fun i _ hi => hi.load hv

theorem inOrder_call {x : Call} : (n.beginCall x).InOrder := by
  cases x with
  | receive c message => exact inOrder_receive h
  | storeScene e slot => exact inOrder_storeScene h
  | recallScene e slot transition => exact inOrder_recallScene h
  | setLightDefault e l => exact inOrder_setLightDefault h
  | setLightRange e lo hi => exact inOrder_setLightRange h
  | query e m => exact (h.tells (tells_emit n _)).inOrder
  | publishPeriodically e m =>
    refine .plain h ?_
    split <;> simp [Job.Proper]
  | powerUp =>
    refine .plain h (Job.allProper_map (fun _ => ?_) _)
    trivial
  | request | publish | sendStatus => exact .plain h (by simp [Job.Proper])
  | reset => exact h.reset.inOrder
  | restore s => exact (h.restore s).inOrder
  | keepSaved e m =>
    refine Regular.inOrder ?_
    exact h.modify fun _ _ hi => { hi with }
  | _ => exact Regular.inOrder { h with }

/-- Whatever is begun on a regular node leaves it regular and leaves jobs that can be done. -/
theorem inOrder_begin {j : Job} (hj : j.Proper) : (n.begin j).InOrder := by
  cases j with
  | announce e m => exact (h.tells (tells_announce n e m)).inOrder
  | publish e m => exact (h.tells (tells_publish n e m)).inOrder
  | save e m => exact (h.tells (tells_save n e m)).inOrder
  | sendStatus e m reply => exact (h.tells (tells_sendStatus n e m _ _ _)).inOrder
  | reportLight e status => exact (h.tells (tells_emit n _)).inOrder
  | reportStored e v => exact (h.tells (tells_emit n _)).inOrder
  | display e m v s => exact (h.display hj).inOrder
  | resolveEdge e m =>
    refine Regular.inOrder ?_
    exact h.modify fun _ _ hi => { hi with }
  | ascend => exact Regular.inOrder { h with }
  | follow e m v => exact inOrder_follow h
  | obey v b => exact .plain { h with } (Job.allProper_map (f := .carryOut) (fun _ => trivial) _)
  | carryOut r => exact inOrder_carryOut h
  | start e m v t d s motion => exact inOrder_start h hj
  | program e m v t d s => exact inOrder_program h hj.1 hj.2
  | embark e m v t s stepped => exact inOrder_embark h hj
  | settle e m v s => exact inOrder_settle h hj
  | halt e m => exact inOrder_halt h
  | answer c m => exact inOrder_answer h
  | expire timer => exact inOrder_expire h
  | call x => exact inOrder_call h

end Jobs

theorem ReportsTruly.tells {j : Job} (h : n.ReportsTruly j) :
    ∃ n', n.begin j = ⟨n', []⟩ ∧ n.Tells n' := by
  cases j with
  | reportLight e status => exact ⟨_, rfl, tells_emit n _⟩
  | reportStored e v => exact ⟨_, rfl, tells_emit n _⟩
  | _ => cases h

theorem reportsTruly_display (hh : n.hosts e v.model) (hm : v.model.isTransitional = false) :
    (n.display e v.model v s).ReportsTruly (.reportStored e v) := by
  obtain ⟨i, hi⟩ := hosts_iff.mp hh
  refine ⟨hm, ?_⟩
  rw [display, present?, get?_modify_self, hi]
  rfl

theorem ReportsTruly.save {j : Job} (h : n.ReportsTruly j) (e : UInt8) (m : Model) :
    (n.save e m).ReportsTruly j := by
  obtain ⟨es, hsave, -⟩ := tells_save n e m
  rw [hsave]
  exact h

end Node

/-! ## Every moment of every run -/

namespace Moment

variable {P : Node → Call → Prop} {c c' : Moment}

theorem InOrder.next (h : c.InOrder) (hc : Next P c c') : c'.InOrder := by
  cases hc with
  | work n j js =>
    obtain ⟨hn, ks, rest, hagenda, hks, hrest⟩ := h
    -- Between what makes a report so and the report itself there is only a save.
    cases hks with
    | nothing =>
      obtain rfl : j :: js = rest := hagenda
      obtain ⟨hj, hjs⟩ := Job.allProper_cons.mp hrest
      obtain ⟨hbegun, ks', rest', heq, hks', hrest'⟩ := Node.inOrder_begin hn hj
      refine ⟨hbegun, ks', rest' ++ js, ?_, hks', Job.allProper_append.mpr ⟨hrest', hjs⟩⟩
      rw [heq, List.append_assoc]
    | stored s hh hv hm =>
      obtain ⟨rfl, rfl⟩ := List.cons.inj hagenda
      have hshown := Node.reportsTruly_display (s := s) hh hm
      exact ⟨hn.display ⟨rfl, hv⟩, _, rest, rfl, .saved _ _ hshown, hrest⟩
    | @saved e m k hk =>
      obtain ⟨rfl, rfl⟩ := List.cons.inj hagenda
      exact ⟨hn.tells (Node.tells_save n e m), [k], rest, rfl, .due (hk.save e m), hrest⟩
    | due hk =>
      obtain ⟨rfl, rfl⟩ := List.cons.inj hagenda
      obtain ⟨n', hbegin, htells⟩ := hk.tells
      rw [hbegin]
      exact .plain (hn.tells htells) hrest
  | call x _ => exact .plain h.node (by simp [Job.Proper])
  | expiry _ => exact .plain { h.node with } (by simp [Job.Proper])
  | passage _ => exact .plain { h.node with } (by simp)

theorem InOrder.later (h : c.InOrder) (hc : Later P c c') : c'.InOrder := by
  induction hc with
  | refl => exact h
  | tail _ hc ih => exact ih.next hc

end Moment

namespace Node

variable {n : Node} {e : UInt8} {m : Model} {i : Instance}

theorem IsBuilt.regular (h : n.IsBuilt) : n.Regular where
  count := h.length_elements
  instances _ _ _ hi := h.holdsPlanned (holdsOfPlanned_wellFormed n.config) hi

theorem IsBuilt.inOrder {P : Node → Call → Prop} {c : Moment} (h : n.IsBuilt)
    (hc : Moment.Later P ⟨n, []⟩ c) : c.InOrder :=
  h.regular.inOrder.later hc

theorem IsReached.regular (h : n.IsReached) : n.Regular := by
  obtain ⟨n₀, ops, hn₀, rfl⟩ := h
  exact (hn₀.inOrder (later_of_run _ ops)).node

theorem mem_instances_iff (h : n.elements.length ≤ NodePlan.maxElements) :
    (e, m, i) ∈ n.instances ↔ n.get? e m = some i := by
  refine ⟨fun hmem => ?_, mem_instances⟩
  simp only [instances, List.mem_flatMap, Prod.exists, List.mem_map] at hmem
  obtain ⟨el, k, hk, m', i', hi, heq⟩ := hmem
  simp only [Prod.mk.injEq] at heq
  obtain ⟨rfl, rfl, rfl⟩ := heq
  obtain ⟨m, -, hm⟩ := List.mem_filterMap.mp hi
  obtain ⟨i, hget, heq⟩ := Option.map_eq_some_iff.mp hm
  obtain ⟨rfl, rfl⟩ := Prod.mk.injEq .. ▸ heq
  have hel := List.mk_mem_zipIdx_iff_getElem?.mp hk
  have hlt : k < 256 := (List.getElem?_eq_some_iff.mp hel).1.trans_le h
  have hindex : (UInt8.ofNat k).toNat = k := UInt8.toNat_ofNat_of_lt hlt
  rw [get?, instance?, hindex, hel]
  exact hget

structure WellFormed (n : Node) : Prop where
  places : ∀ e m i, (e, m, i) ∈ n.instances ↔ n.get? e m = some i
  instances : ∀ e m i, n.get? e m = some i → i.WellFormed m n.config.sceneSlots.toNat
  /-- A lightness can be pulled into the range of any instance. -/
  clamps : ∀ e m i, n.get? e m = some i →
    (∀ l, i.light.clamp? l = some (i.light.clamp l)) ∧ i.light.onValue? = some i.light.onValue

theorem Regular.wellFormed (h : n.Regular) : n.WellFormed where
  places _ _ _ := mem_instances_iff h.count
  instances := h.instances
  clamps e m i hi :=
    have hrange := (h.instances e m i hi).range.2
    ⟨LightMemory.clamp?_eq hrange, LightMemory.onValue?_eq hrange⟩

/-- However a node was built, whatever bindings it has and whatever snapshots are loaded, it is
well-formed between any two operations and at every moment of each of them. -/
theorem wellFormed_throughout (hn : n.IsBuilt) :
    (∀ ops, (n.run ops).WellFormed) ∧
      ∀ c, Moment.Later (fun _ _ => True) ⟨n, []⟩ c → c.node.WellFormed := by
  refine ⟨fun ops => ?_, fun c hc => (hn.inOrder hc).node.wellFormed⟩
  exact (hn.inOrder (later_of_run _ ops)).node.wellFormed

/-- A snapshot that was made elsewhere is loaded into a level that moves. -/
theorem wellFormed_throughout_soloLevel :
    let image : Image :=
      ⟨0, .level, .level 7, .level 9, [some (.level 1)], ⟨0, 3, 5, 6⟩, ⟨[], 0⟩⟩
    let n := soloLevel.run [.call (.request (.application 0 (.level 3000) 3000 0)), .advance 1000,
      .call (.restore (.ofImage "" .epoch image))]
    n.present? 0 .level = some (.level 7) ∧ n.WellFormed :=
  ⟨by decide +kernel, (wellFormed_throughout isBuilt_soloLevel).1 _⟩

end Node

end MeshNode
