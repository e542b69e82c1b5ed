import MeshNode.Proofs.Isolation.CallsInPart
import MeshNode.Proofs.Effects.Bystanders
import MeshNode.Proofs.Bindings.SeparateTargets
import MeshNode.Proofs.Bindings.LampsInStep
import MeshNode.Proofs.Storage.SceneSlots
import MeshNode.Proofs.Node.WellFormedInstances

/-! # Scenes are recalled as they were stored

A stored scene holds the present values of all instances on the element that can hold one, and keeps
them until it is stored again. A recall asks each of these instances for its value and no other
instance for anything. The requests do not get in each other's way, however the instances are bound
to one another, as bindings follow none of them.
-/

namespace MeshNode

namespace Instance

variable {i : Instance} {slot : Nat}

def stored (i : Instance) (slot : Nat) : Instance :=
  { i with scenes := i.scenes.set slot (some i.present) }

theorem stored_stored : (i.stored slot).stored slot = i.stored slot := by
  simp [stored]

theorem scene?_stored (h : slot < i.scenes.length) :
    (i.stored slot).scene? slot = some i.present := by
  simp [scene?, stored, h]

theorem scene?_of_le (h : i.scenes.length ≤ slot) : i.scene? slot = none := by
  simp [scene?, List.getElem?_eq_none h]

end Instance

namespace Node

variable {n n' n₁ : Node} {e e' : UInt8} {m m' : Model} {i j : Instance} {v : Value} {slot t : Nat}
  {F : Follow} {P : UInt8 → Model → Prop}

/-! ## The instances on an element -/

theorem instancesOn_eq (n : Node) (e : UInt8) :
    n.instancesOn e = Model.all.filterMap fun m => (n.get? e m).map (m, ·) := by
  simp only [instancesOn, get?, instance?]
  cases n.elements[e.toNat]? with
  | none => simp
  | some el => rfl

theorem mem_storable :
    m ∈ n.storable e slot ↔ ∃ i, n.get? e m = some i ∧ slot < i.scenes.length := by
  simp [storable, instancesOn_eq, Model.mem_all]

theorem supportsScenes_of_storable (hn : n.Regular) (h : m ∈ n.storable e slot) :
    m.supportsScenes = true := by
  obtain ⟨i, hi, hlt⟩ := mem_storable.mp h
  by_contra hnot
  rw [(hn.instances e m i hi).slots, if_neg hnot] at hlt
  omega

/-! ## Storing -/

theorem storeScene_success_iff : (n.storeScene e slot).2 = .success ↔
    slot < n.config.sceneSlots.toNat ∧ n.storable e slot ≠ [] := by
  unfold storeScene storable instancesOn
  split
  next h => simp [h]
  next el h =>
    simp only [h, Option.elim_some]
    split
    next hle => simp [Nat.not_lt.mpr hle]
    next hslot =>
      split
      next hnil => simp [hnil]
      next hne => exact iff_of_true rfl ⟨Nat.lt_of_not_le hslot, hne⟩

/-- Every storing puts a present value into its own instance, and it does not matter how often. -/
theorem get?_storeIns (models : List Model) (n : Node) :
    (models.foldl (fun n m => n.storeIn e slot m) n).get? e m =
      (n.get? e m).map fun i => if m ∈ models then i.stored slot else i := by
  induction models generalizing n with
  | nil => simp
  | cons m' models ih =>
    rw [List.foldl_cons, ih]
    by_cases hm : m = m'
    · subst hm
      have hself : (n.storeIn e slot m).get? e m = (n.get? e m).map (·.stored slot) :=
        get?_modify_self
      rw [hself, Option.map_map]
      congr 1
      funext i
      simp [Instance.stored_stored]
    · have hother : (n.storeIn e slot m').get? e m = n.get? e m :=
        get?_modify_of_ne fun hx => hm (Prod.mk.inj hx).2
      rw [hother]
      simp [hm]

theorem slot?_storeScene_self (hn : n.Regular) (h : (n.storeScene e slot).2 = .success)
    (m : Model) : (n.storeScene e slot).1.slot? e m slot =
      if m.supportsScenes then n.present? e m else none := by
  have hslot := (storeScene_success_iff.mp h).1
  have hget : (n.storeScene e slot).1.get? e m =
      (n.get? e m).map fun i => if m ∈ n.storable e slot then i.stored slot else i := by
    rw [storeScene_eq, if_neg (Nat.not_le.mpr hslot), ← get?_storeIns]
    exact List.foldlRecOn (motive := fun n' : Node => n'.get? e m = _) _ _ rfl
      fun n' hn' m' _ => ((tells_save n' e m').alike.get? e m).trans hn'
  rw [slot?, hget, present?]
  cases hi : n.get? e m with
  | none => simp
  | some i =>
    have hlength := (hn.instances e m i hi).slots
    have hmem : m ∈ n.storable e slot ↔ slot < i.scenes.length := by simp [mem_storable, hi]
    simp only [Option.map_some, Option.bind_some, hmem]
    by_cases hm : m.supportsScenes = true
    · rw [if_pos hm] at hlength
      rw [if_pos hm, if_pos (hlength ▸ hslot), Instance.scene?_stored (hlength ▸ hslot)]
    · rw [if_neg hm] at hlength
      rw [if_neg hm, if_neg (by omega), Instance.scene?_of_le (by omega)]

/-- A scene that was stored and not stored again holds what it did, if no snapshot was loaded on the
element. -/
theorem slot?_stored {ops : List Operation} (hn : n.IsReached)
    (hstore : (n.storeScene e slot).2 = .success)
    (hops : (n.storeScene e slot).1.Admits (SparesSlot e slot) ops) (m : Model) :
    ((n.storeScene e slot).1.run ops).slot? e m slot =
      if m.supportsScenes then n.present? e m else none := by
  have hsound : (n.storeScene e slot).1.Sound := hn.sound.perform (.call (.storeScene e slot))
  rw [slot?_steps (run_steps hops), slot?_storeScene_self hn.regular hstore]

/-! ## What a scene asks of one instance -/

/-- From the first node to the second an instance stays as it is and nothing is asked of it. -/
structure PassesBy (n n' : Node) (e : UInt8) (m : Model) : Prop where
  get? : n'.get? e m = n.get? e m
  requests : n'.requestsFor e m = n.requestsFor e m

/-- From the first node to the second an instance took up what a scene had for it, and without a
transition it is there. -/
structure Obtains (n n' : Node) (e : UInt8) (m : Model) (i : Instance) (v : Value) (t : Nat) :
    Prop where
  requests : n'.requestsFor e m = (admitted i (.scene e m v t), none) :: n.requestsFor e m
  arrives : t = 0 → ∃ k, n'.get? e m = some k ∧ k.present = confine i v ∧ k.phase = .idle

/-- From the first node to the second no binding follows anything. -/
def NoneFollows (n n' : Node) : Prop :=
  ∃ es, n'.log = es ++ n.log ∧ ∀ link v d, Effect.followed link v d ∉ es

theorem PassesBy.refl (n : Node) (e : UInt8) (m : Model) : n.PassesBy n e m := ⟨rfl, rfl⟩

theorem PassesBy.trans (h : n.PassesBy n₁ e m) (h' : n₁.PassesBy n' e m) : n.PassesBy n' e m :=
  ⟨h'.get?.trans h.get?, h'.requests.trans h.requests⟩

theorem PassesBy.obtains (h : n.PassesBy n₁ e m) (h' : n₁.Obtains n' e m i v t) :
    n.Obtains n' e m i v t :=
  ⟨h'.requests.trans (by rw [h.requests]), h'.arrives⟩

theorem Obtains.passesBy (h : n.Obtains n₁ e m i v t) (h' : n₁.PassesBy n' e m) :
    n.Obtains n' e m i v t where
  requests := h'.requests.trans h.requests
  arrives ht := by
    obtain ⟨k, hk, hpresent⟩ := h.arrives ht
    exact ⟨k, h'.get?.trans hk, hpresent⟩

theorem passesBy_of_doneFor (h : n.DoneFor stay (fun e' m' => (e', m') ≠ (e, m)) n') :
    n.PassesBy n' e m := by
  induction h with
  | refl | timers | follow => exact ⟨rfl, rfl⟩
  | modify hne f => exact ⟨get?_modify_of_ne (Ne.symm hne), rfl⟩
  | note hx hne => exact ⟨rfl, List.filterMap_cons_none (effect_of_subject hx hne).1⟩
  | trans _ _ ih ih' => exact ih.trans ih'

theorem noneFollows_of_doneFor (h : n.DoneFor stay P n') : n.NoneFollows n' := by
  induction h with
  | refl | timers | follow | modify => exact ⟨[], rfl, by simp⟩
  | @note n e m x hx _ =>
    refine ⟨[x], rfl, fun link v d hmem => ?_⟩
    obtain rfl := List.mem_singleton.mp hmem
    cases hx
  | trans _ _ ih ih' =>
    obtain ⟨es, hlog, hes⟩ := ih
    obtain ⟨es', hlog', hes'⟩ := ih'
    refine ⟨es' ++ es, by rw [hlog', hlog, List.append_assoc], fun link v d hmem => ?_⟩
    exact (List.mem_append.mp hmem).elim (hes' link v d) (hes link v d)

theorem doneFor_scene (h : P e m) (n : Node) :
    n.DoneFor stay P (n.carryOut F (.scene e m v t)) := by
  have hquiet : n.carryOut F (.scene e m v t) = n.carryOut stay (.scene e m v t) :=
    carryOut_of_quiet rfl n
  rw [hquiet]
  exact doneFor_carryOut h n

theorem obtains_scene (hi : n.get? e m = some i) (hv : v.IsFor m) :
    n.Obtains (n.carryOut F (.scene e m v t)) e m i v t := by
  have hcheck : n.check e m v = .success := by
    rw [check, hosts, hi]
    simp [hv.1, hv.2]
  have hstart : n.carryOut F (.scene e m v t) = n.start F e m v t 0 .scene none := by
    rw [carryOut]
    split
    next => rfl
    next hne => exact absurd hcheck hne
  have hquiet : Source.scene.triggersBindings = true → ∀ n w, Tells n (F n e m w) :=
    fun h => absurd h (by decide)
  obtain ⟨n₁, hw, ht⟩ := start_writes (v := v) (t := t) (d := 0) isAftermath_tells hquiet none hi
  rw [hstart]
  refine ⟨(ht.requestsFor e m).trans hw.requests, ?_⟩
  rintro rfl
  obtain ⟨k, hk, hcourse⟩ := hw.onCourse.exists_get?_of_watch (ht.watch e m)
  have hzero : (admitted i ⟨e, m, v, 0, 0, .scene⟩).transition = 0 ∧
      (admitted i ⟨e, m, v, 0, 0, .scene⟩).delay = 0 := by simp [admitted]
  rw [hzero.1, hzero.2] at hcourse
  obtain ⟨hpresent, -, hremaining, hdelay, -⟩ := Course.mk.injEq .. ▸ hcourse
  refine ⟨k, hk, hpresent, Instance.phase_eq_idle_iff.mpr ?_⟩
  have hremaining : k.remaining = 0 := hremaining
  have hdelay : k.delay = 0 := hdelay
  omega

/-! ## What a scene asks of all -/

/-- What a scene with some values asks of a model on an element. -/
def sceneRequest? (e : UInt8) (t : Nat) (values : Model → Option Value) (m : Model) :
    Option Request :=
  (values m).map fun v => .scene e m v t

def sceneRequests (e : UInt8) (t : Nat) (values : Model → Option Value) : List Request :=
  Model.all.filterMap (sceneRequest? e t values)

/-- An instance takes up what the scene has for it, whatever the scene asks of others before and
after. -/
theorem obtains_scenes (values : Model → Option Value) (hi : n.get? e m = some i)
    (hv : values m = some v) (hfor : v.IsFor m) :
    n.Obtains ((sceneRequests e t values).foldl (carryOut F) n) e m i v t := by
  obtain ⟨before, after, hall⟩ := List.append_of_mem (Model.mem_all m)
  have hnodup : (before ++ m :: after).Nodup := hall ▸ by decide
  have hnotMem : m ∉ before ++ after := (List.nodup_cons.mp (List.nodup_middle.mp hnodup)).1
  have hothers {models : List Model} (hm : m ∉ models) {r : Request}
      (hr : r ∈ models.filterMap (sceneRequest? e t values)) (n : Node) :
      n.PassesBy (n.carryOut F r) e m := by
    obtain ⟨m', hm', hr⟩ := List.mem_filterMap.mp hr
    obtain ⟨v', -, rfl⟩ := Option.map_eq_some_iff.mp hr
    refine passesBy_of_doneFor (doneFor_scene (fun hx => ?_) n)
    obtain rfl := (Prod.mk.inj hx).2
    exact hm hm'
  have hsplit : sceneRequests e t values = before.filterMap (sceneRequest? e t values) ++
      .scene e m v t :: after.filterMap (sceneRequest? e t values) := by
    have hself : sceneRequest? e t values m = some (.scene e m v t) := by
      rw [sceneRequest?, hv, Option.map_some]
    rw [sceneRequests, hall, List.filterMap_append, List.filterMap_cons_some hself]
  rw [hsplit]
  refine foldl_through (I := fun n' => n.PassesBy n' e m) (J := fun n' => n.Obtains n' e m i v t)
    (fun r hr n' h => ?_) (fun n' h => ?_) (fun r hr n' h => ?_) (.refl n e m)
  · exact h.trans (hothers (fun hm => hnotMem (List.mem_append_left _ hm)) hr n')
  · exact h.obtains (obtains_scene (h.get?.trans hi) hfor)
  · exact h.passesBy (hothers (fun hm => hnotMem (List.mem_append_right _ hm)) hr n')

theorem doneFor_scenes {values : Model → Option Value}
    (h : ∀ m v, values m = some v → P e m) (n : Node) :
    n.DoneFor stay P ((sceneRequests e t values).foldl (carryOut F) n) := by
  refine doneFor_foldl (fun n r hr => ?_) n
  obtain ⟨m, -, hr⟩ := List.mem_filterMap.mp hr
  obtain ⟨v, hv, rfl⟩ := Option.map_eq_some_iff.mp hr
  exact doneFor_scene (h m v hv) n

/-! ## Recalling what was stored -/

theorem recalled_eq (n : Node) (e : UInt8) (slot t : Nat) :
    n.recalled e slot t = sceneRequests e t fun m => n.slot? e m slot := by
  rw [recalled, instancesOn_eq, List.filterMap_filterMap]
  refine congrArg (List.filterMap · Model.all) (funext fun m => ?_)
  rw [sceneRequest?, slot?]
  cases n.get? e m <;> rfl

theorem recallScene_success_iff : (n.recallScene e slot t).2 = .success ↔
    slot < n.config.sceneSlots.toNat ∧ n.recalled e slot t ≠ [] := by
  unfold recallScene recalled instancesOn
  split
  next h => simp [h]
  next el h =>
    simp only [h, Option.elim_some]
    split
    next hle => simp [Nat.not_lt.mpr hle]
    next hslot =>
      split
      next hnil => simp [hnil]
      next hne => exact iff_of_true rfl ⟨Nat.lt_of_not_le hslot, hne⟩

theorem recallScene_of_slot? (hslot : slot < n.config.sceneSlots.toNat)
    (hv : n.slot? e m slot = some v) : n.recallScene e slot t =
      ((sceneRequests e t fun m => n.slot? e m slot).foldl (carryOut follow) n, .success) := by
  have hmem : Request.scene e m v t ∈ n.recalled e slot t := by
    rw [recalled_eq]
    exact List.mem_filterMap.mpr ⟨m, Model.mem_all m, by rw [sceneRequest?, hv]; rfl⟩
  have hsuccess := recallScene_success_iff.mpr ⟨hslot, List.ne_nil_of_mem hmem⟩
  refine Prod.ext ?_ hsuccess
  rw [recallScene_eq, if_neg (Nat.not_le.mpr hslot), recalled_eq]

/-! ## A scene that was stored and spared since -/

theorem admitted_scene (hm : m.supportsScenes = true) :
    admitted i (.scene e m v t) = ⟨e, m, confine i v, t, 0, .scene⟩ := by
  cases m <;> first | rfl | cases hm

section Stored

variable {ops : List Operation} (hn : n.IsReached) (hstore : (n.storeScene e slot).2 = .success)
  (hops : (n.storeScene e slot).1.Admits (SparesSlot e slot) ops)

include hn

theorem IsReached.precedes_stored (ops : List Operation) :
    n.Precedes ((n.storeScene e slot).1.run ops) := by
  have hstored : (n.storeScene e slot).1.Sound := hn.sound.perform (.call (.storeScene e slot))
  have hbefore : n.Precedes (n.storeScene e slot).1 :=
    handle_precedes hn.sound.typed (.storeScene e slot)
  exact hbefore.trans (run_precedes hstored ops)

include hstore hops

theorem slot?_of_stored (hm : m.supportsScenes = true) (hi : n.get? e m = some i) :
    ((n.storeScene e slot).1.run ops).slot? e m slot = some i.present := by
  rw [slot?_stored hn hstore hops, if_pos hm, present?, hi, Option.map_some]

theorem hosts_of_slot? (hv : ((n.storeScene e slot).1.run ops).slot? e m slot = some v) :
    m.supportsScenes = true ∧ n.hosts e m = true := by
  rw [slot?_stored hn hstore hops] at hv
  split at hv
  next hm =>
    obtain ⟨i, hi, -⟩ := Option.map_eq_some_iff.mp hv
    exact ⟨hm, hosts_iff.mpr ⟨i, hi⟩⟩
  next => cases hv

/-- A scene that was stored has a value, so the recall is not refused. -/
theorem recallScene_stored (t : Nat) :
    let kept := (n.storeScene e slot).1.run ops
    kept.recallScene e slot t =
      ((sceneRequests e t fun m => kept.slot? e m slot).foldl (carryOut follow) kept,
        .success) := by
  intro kept
  obtain ⟨hslot, hstorable⟩ := storeScene_success_iff.mp hstore
  obtain ⟨m, hm⟩ := List.exists_mem_of_ne_nil _ hstorable
  obtain ⟨i, hi, -⟩ := mem_storable.mp hm
  have hkept : n.Precedes kept := hn.precedes_stored ops
  exact recallScene_of_slot? (hkept.config ▸ hslot)
    (slot?_of_stored hn hstore hops (supportsScenes_of_storable hn.regular hm) hi)

theorem obtains_stored (t : Nat) (hm : m.supportsScenes = true) (hi : n.get? e m = some i) :
    let kept := (n.storeScene e slot).1.run ops
    ∃ j, kept.get? e m = some j ∧ kept.Obtains (kept.recallScene e slot t).1 e m j i.present t := by
  intro kept
  have hhosts : kept.hosts e m = true := by
    rw [hosts_congr (hn.precedes_stored ops).shape]
    exact hosts_iff.mpr ⟨i, hi⟩
  obtain ⟨j, hj⟩ := hosts_iff.mp hhosts
  rw [recallScene_stored hn hstore hops]
  exact ⟨j, hj, obtains_scenes _ hj (slot?_of_stored hn hstore hops hm hi)
    (hn.regular.instances e m i hi).present⟩

theorem passesBy_stored (t : Nat)
    (hnone : e' = e → m'.supportsScenes = true → n.hosts e m' = false) :
    let kept := (n.storeScene e slot).1.run ops
    kept.PassesBy (kept.recallScene e slot t).1 e' m' := by
  intro kept
  rw [recallScene_stored hn hstore hops]
  refine passesBy_of_doneFor (doneFor_scenes (fun m v hv hx => ?_) kept)
  obtain ⟨rfl, rfl⟩ := Prod.mk.inj hx
  obtain ⟨hm, hhosts⟩ := hosts_of_slot? hn hstore hops hv
  rw [hnone rfl hm] at hhosts
  cases hhosts

end Stored

/-- A scene that was stored and not stored again, on an element on which no snapshot was loaded
since, is recalled as it was: every instance that can hold a scene is asked for the present value
that it had, a lightness within the range that it has now, and no other instance is asked for
anything. Without a transition each shows that value at the end and is idle. No binding follows. -/
theorem recall_as_stored {ops : List Operation} (hn : n.IsReached)
    (hstore : (n.storeScene e slot).2 = .success)
    (hops : (n.storeScene e slot).1.Admits (SparesSlot e slot) ops) (t : Nat) :
    let kept := (n.storeScene e slot).1.run ops
    let recalled := (kept.recallScene e slot t).1
    (kept.recallScene e slot t).2 = .success ∧
    (∀ m i, m.supportsScenes = true → n.get? e m = some i → ∃ j, kept.get? e m = some j ∧
      recalled.requestsFor e m =
        (⟨e, m, confine j i.present, t, 0, .scene⟩, none) :: kept.requestsFor e m ∧
      (t = 0 → ∃ k, recalled.get? e m = some k ∧ k.present = confine j i.present ∧
        k.phase = .idle)) ∧
    (∀ e' m', (e' = e → m'.supportsScenes = true → n.hosts e m' = false) →
      recalled.get? e' m' = kept.get? e' m' ∧
      recalled.requestsFor e' m' = kept.requestsFor e' m') ∧
    kept.NoneFollows recalled := by
  intro kept recalled
  have hrecall := recallScene_stored hn hstore hops t
  refine ⟨congrArg Prod.snd hrecall, fun m i hm hi => ?_, fun e' m' hnone => ?_, ?_⟩
  · obtain ⟨j, hj, hobtains⟩ := obtains_stored hn hstore hops t hm hi
    exact ⟨j, hj, admitted_scene hm ▸ hobtains.requests, hobtains.arrives⟩
  · have hpasses := passesBy_stored hn hstore hops t hnone
    exact ⟨hpasses.get?, hpasses.requests⟩
  · have hrecalled : recalled = _ := congrArg Prod.fst hrecall
    rw [hrecalled]
    exact noneFollows_of_doneFor (P := fun _ _ => True) (doneFor_scenes (fun _ _ _ => trivial) kept)

/-- A scene of a bright lamp is recalled while the lamp is fading and after its range was narrowed:
its lightness then lacks what the range takes, and the level that is bound to it is what it was. -/
theorem recall_as_stored_lamp :
    let n := lamp.run [.call (.bindLightnessToLevel 0 0),
      .call (.request (.application 0 (.lightness 60000) 0 0))]
    let ops : List Operation :=
      [.call (.request (.application 0 (.level (-5)) 0 0)), .call (.setLightRange 0 1000 30000),
        .call (.storeScene 0 1), .call .reset, .call .powerUp,
        .call (.request (.application 0 (.lightness 2000) 4000 0)), .advance 1000]
    let kept := (n.storeScene 0 2).1.run ops
    let recalled := (kept.recallScene 0 2 0).1
    n.IsReached ∧ (n.storeScene 0 2).2 = .success ∧
      (n.storeScene 0 2).1.Admits (SparesSlot 0 2) ops ∧
      (kept.recallScene 0 2 0).2 = .success ∧
      recalled.present? 0 .lightness = some (.lightness 30000) ∧
      recalled.present? 0 .level = some (.level 27232) ∧
      kept.NoneFollows recalled := by
  intro n ops kept recalled
  have hn : n.IsReached := ⟨lamp, _, isBuilt_lamp, rfl⟩
  have hstore : (n.storeScene 0 2).2 = .success := by decide +kernel
  have hops : (n.storeScene 0 2).1.Admits (SparesSlot 0 2) ops := by
    refine admits_of_forall (fun n' x hx => ?_) _
    simp only [ops, List.mem_cons, List.not_mem_nil, Operation.call.injEq, or_false,
      reduceCtorEq] at hx
    rcases hx with rfl | rfl | rfl | rfl | rfl | rfl <;> simp [SparesSlot]
  obtain ⟨hsuccess, -, -, hquiet⟩ := recall_as_stored hn hstore hops 0
  exact ⟨hn, hstore, hops, hsuccess, by decide +kernel, by decide +kernel, hquiet⟩

end Node

end MeshNode
