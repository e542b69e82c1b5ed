import MeshNode.Proofs.Isolation.ChangesInPart
import MeshNode.Proofs.Transactions.DeltaOrigins

/-! # Calls in a part of a node

In a node without bindings a call that is about an instance of a part does there what it does in the
node, and a call about any other instance does nothing there. A message also reads the default
transition time of its element, so the part has to have that as well.
-/

namespace MeshNode.Node

variable {n n' : Node} {keep : Scope} {e : UInt8} {m : Model} {c : Envelope} {i : Instance}
  {ack : Bool} {k : UInt8} {message : Message} {v : Value} {t d : Nat} {motion : Option Motion}

theorem hosts_focus (hk : keep e m = true) : (n.focus keep).hosts e m = n.hosts e m := by
  rw [hosts, hosts, get?_focus_of_keep hk]

theorem present?_focus (hk : keep e m = true) : (n.focus keep).present? e m = n.present? e m := by
  rw [present?, present?, get?_focus_of_keep hk]

/-! ## Messages -/

theorem timing_focus (hk : keep e .defaultTransition = true) :
    (n.focus keep).timing e = n.timing e := by
  funext t
  cases t with
  | none => simp only [timing, defaultTransition, present?_focus hk]
  | some t => rfl

theorem focus_remember (o : n.timers.Ordered) : (n.remember c m k ack).focus keep =
    if keep c.element m then (n.focus keep).remember c m k ack else n.focus keep := by
  rw [remember, focus_arm, focus_modify]
  · by_cases hk : keep c.element m = true
    · rw [if_pos hk]
      exact if_pos hk
    · rw [if_neg hk, modify_of_absent (get?_focus_of_not_keep hk)]
      exact if_neg hk
  · exact o

theorem focus_startForClient (hb : n.IsUnbound) (o : n.timers.Ordered) :
    (n.startForClient e v t d motion).focus keep = (n.focus keep).startForClient e v t d motion :=
  focus_start hb o

theorem startForClient_of_absent (h : n.get? e v.model = none) :
    n.startForClient e v t d motion = n :=
  start_of_absent h

theorem answerUnlessDelayed_of_absent (h : n.get? c.element m = none) :
    n.answerUnlessDelayed c m = n := by
  simp only [answerUnlessDelayed, h]

theorem focus_answerUnlessDelayed : (n.answerUnlessDelayed c m).focus keep =
    (n.focus keep).answerUnlessDelayed c m := by
  by_cases hk : keep c.element m = true
  · rw [answerUnlessDelayed, answerUnlessDelayed, get?_focus_of_keep hk]
    split
    · rfl
    · split
      · rfl
      · split
        · rw [answer, focus_sendStatus, focus_modify]
          rfl
        · rfl
  · have habsent := get?_focus_of_not_keep (n := n) hk
    rw [answerUnlessDelayed_of_absent habsent, answerUnlessDelayed]
    split
    · rfl
    · split
      · rfl
      · split
        · rw [answer, focus_sendStatus, focus_modify, modify_of_absent habsent,
            sendStatus_of_absent habsent]
        · rfl

/-- What there is of the result of a message in a part of the node. -/
def focusFst (keep : Scope) (res : Node × Outcome) : Node × Outcome := (res.1.focus keep, res.2)

theorem focus_withParams {α : Type} {p : Except (List Violation) α} {act act' : α → Node × Outcome}
    (hact : ∀ a, p = .ok a → focusFst keep (act a) = act' a) :
    focusFst keep (n.withParams p act) = (n.focus keep).withParams p act' := by
  unfold withParams
  split
  next a => exact hact a rfl
  next => rfl

section Kept

variable (hb : n.IsUnbound) (o : n.timers.Ordered) (hk' : keep c.element .defaultTransition = true)
include hb o hk'

theorem focus_onSet {p : Params Value} (hk : keep c.element p.value.model = true) :
    focusFst keep (n.onSet c i p ack) = (n.focus keep).onSet c i p ack := by
  rw [onSet, onSet]
  split
  · rfl
  · rw [timing_focus hk', focusFst]
    dsimp only
    rw [focus_answerUnlessDelayed, focus_startForClient, focus_remember, if_pos hk]
    · exact o
    · exact hb
    · exact o.arm _ _

theorem focus_onDelta {p : Params Int32} (hk : keep c.element .level = true) :
    focusFst keep (n.onDelta c i p ack) = (n.focus keep).onDelta c i p ack := by
  rw [onDelta, onDelta, timing_focus hk', focusFst]
  dsimp only
  rw [focus_answerUnlessDelayed, focus_startForClient, focus_remember, if_pos hk, focus_modify]
  · exact o
  · exact hb
  · exact o.arm _ _

theorem focus_onMove {p : Params Level} (hk : keep c.element .level = true) :
    focusFst keep (n.onMove c i p ack) = (n.focus keep).onMove c i p ack := by
  have hremember (k : UInt8) :
      (n.remember c .level k ack).focus keep = (n.focus keep).remember c .level k ack := by
    rw [focus_remember o, if_pos hk]
  rw [onMove, onMove]
  split
  · rfl
  · rw [timing_focus hk', focusFst]
    dsimp only
    rw [focus_answerUnlessDelayed]
    split
    · rw [focus_halt, hremember]
      exact hb
    · split
      · rw [focus_startForClient, hremember]
        · rfl
        · exact hb
        · exact o.arm _ _
      · rw [hremember]

theorem focus_setParams {α : Type} {width : Nat} {decode : Decoder α} {toValue : α → Value}
    {bytes : List UInt8} (hm : ∀ a, (toValue a).model = m) (hk : keep c.element m = true) :
    focusFst keep (n.withParams (setParams width decode toValue bytes) fun p => n.onSet c i p ack) =
      (n.focus keep).withParams (setParams width decode toValue bytes) fun p =>
        (n.focus keep).onSet c i p ack := by
  refine focus_withParams fun p hp => focus_onSet hb o hk' ?_
  rwa [model_of_setParams hm hp]

omit hb o hk' in
theorem focus_store {v : Value} (hk : keep c.element v.model = true) :
    focusFst keep (n.store c v ack) = (n.focus keep).store c v ack := by
  have hstored : (n.stored c.element v).focus keep = (n.focus keep).stored c.element v := by
    rw [stored, focus_emit, focus_save, focus_modify]
    exact if_pos hk
  rw [store_eq, store_eq, focusFst]
  dsimp only
  split
  · rw [answer, focus_sendStatus, hstored]
    rfl
  · rw [hstored]

theorem focus_receive (hk : keep c.element message.model = true) :
    focusFst keep (n.receive c message) = (n.focus keep).receive c message := by
  rw [receive, receive, get?_focus_of_keep hk]
  split
  · rfl
  · unfold process
    split
    · rw [focusFst, answer, focus_sendStatus]
      rfl
    · exact focus_setParams hb o hk' (fun _ => rfl) hk
    · exact focus_setParams hb o hk' (fun _ => rfl) hk
    · exact focus_setParams hb o hk' (fun _ => rfl) hk
    · exact focus_withParams fun b _ => focus_store hk
    · exact focus_withParams fun t _ => focus_store hk
    · exact focus_withParams fun p _ => focus_onDelta hb o hk' hk
    · exact focus_withParams fun p _ => focus_onMove hb o hk' hk

end Kept

/-! ## Messages to others -/

theorem focus_withParams_of_not_keep {α : Type} {p : Except (List Violation) α}
    {act : α → Node × Outcome} (hact : ∀ a, p = .ok a → (act a).1.focus keep = n.focus keep) :
    (n.withParams p act).1.focus keep = n.focus keep := by
  unfold withParams
  split
  next a => exact hact a rfl
  next => rfl

section Foreign

variable (hb : n.IsUnbound) (o : n.timers.Ordered)
include hb o

theorem focus_onSet_of_not_keep {p : Params Value} (hk : ¬ keep c.element p.value.model = true) :
    (n.onSet c i p ack).1.focus keep = n.focus keep := by
  have habsent := get?_focus_of_not_keep (n := n) hk
  rw [onSet]
  split
  · rfl
  · dsimp only
    rw [focus_answerUnlessDelayed, focus_startForClient, focus_remember, if_neg hk,
      startForClient_of_absent habsent, answerUnlessDelayed_of_absent habsent]
    · exact o
    · exact hb
    · exact o.arm _ _

theorem focus_onDelta_of_not_keep {p : Params Int32} (hn : n.Typed) (ho : n.Originated)
    (hi : n.get? c.element .level = some i) (hk : ¬ keep c.element .level = true) :
    (n.onDelta c i p ack).1.focus keep = n.focus keep := by
  have habsent := get?_focus_of_not_keep (n := n) hk
  have hmodel : ((deltaOrigin i c.src p.tid).shift p.value.toInt).model = .level := by
    rw [Value.model_shift, model_deltaOrigin hn ho hi]
  rw [onDelta]
  dsimp only
  rw [focus_answerUnlessDelayed, focus_startForClient, focus_remember, if_neg hk, focus_modify,
    modify_of_absent habsent, startForClient_of_absent (hmodel ▸ habsent),
    answerUnlessDelayed_of_absent habsent]
  · exact o
  · exact hb
  · exact o.arm _ _

theorem focus_onMove_of_not_keep {p : Params Level} (hk : ¬ keep c.element .level = true) :
    (n.onMove c i p ack).1.focus keep = n.focus keep := by
  have habsent := get?_focus_of_not_keep (n := n) hk
  have hremember (k : UInt8) : (n.remember c .level k ack).focus keep = n.focus keep := by
    rw [focus_remember o, if_neg hk]
  rw [onMove]
  split
  · rfl
  · dsimp only
    rw [focus_answerUnlessDelayed]
    split
    · rw [focus_halt, hremember, halt_focus_of_not_keep hk, answerUnlessDelayed_of_absent habsent]
      exact hb
    · split
      · rw [focus_startForClient, hremember, startForClient_of_absent,
          answerUnlessDelayed_of_absent habsent]
        · exact habsent
        · exact hb
        · exact o.arm _ _
      · rw [hremember, answerUnlessDelayed_of_absent habsent]

omit hb o in
theorem focus_store_of_not_keep {v : Value} (hk : ¬ keep c.element v.model = true) :
    (n.store c v ack).1.focus keep = n.focus keep := by
  have habsent := get?_focus_of_not_keep (n := n) hk
  have hstored : (n.stored c.element v).focus keep = n.focus keep := by
    rw [stored, focus_emit, focus_save, focus_modify, modify_of_absent habsent,
      save_of_absent habsent]
    exact if_neg hk
  rw [store_eq]
  dsimp only
  split
  · rw [answer, focus_sendStatus, hstored, sendStatus_of_absent habsent]
  · exact hstored

theorem focus_setParams_of_not_keep {α : Type} {width : Nat} {decode : Decoder α}
    {toValue : α → Value} {bytes : List UInt8} (hm : ∀ a, (toValue a).model = m)
    (hk : ¬ keep c.element m = true) :
    (n.withParams (setParams width decode toValue bytes) fun p => n.onSet c i p ack).1.focus keep =
      n.focus keep := by
  refine focus_withParams_of_not_keep fun p hp => focus_onSet_of_not_keep hb o ?_
  rwa [model_of_setParams hm hp]

theorem focus_receive_of_not_keep (hn : n.Typed) (ho : n.Originated)
    (hk : ¬ keep c.element message.model = true) :
    (n.receive c message).1.focus keep = n.focus keep := by
  rw [receive]
  split
  · rfl
  next i hi =>
    unfold process
    split
    · rw [answer, focus_sendStatus, sendStatus_of_absent]
      exact get?_focus_of_not_keep hk
    · exact focus_setParams_of_not_keep hb o (fun _ => rfl) hk
    · exact focus_setParams_of_not_keep hb o (fun _ => rfl) hk
    · exact focus_setParams_of_not_keep hb o (fun _ => rfl) hk
    · exact focus_withParams_of_not_keep fun b _ => focus_store_of_not_keep hk
    · exact focus_withParams_of_not_keep fun t _ => focus_store_of_not_keep hk
    · exact focus_withParams_of_not_keep fun p _ => focus_onDelta_of_not_keep hb o hn ho hi hk
    · exact focus_withParams_of_not_keep fun p _ => focus_onMove_of_not_keep hb o hk

end Foreign

/-! ## Scenes -/

theorem focus_foldl {α : Type} {I : Node → Prop} {f : Node → α → Node} {p : α → Bool}
    (hf : ∀ n a, I n → I (f n a) ∧
      (f n a).focus keep = if p a then f (n.focus keep) a else n.focus keep)
    (as : List α) (h : I n) :
    (as.foldl f n).focus keep = (as.filter p).foldl f (n.focus keep) := by
  induction as generalizing n with
  | nil => rfl
  | cons a as ih =>
    obtain ⟨hI, heq⟩ := hf n a h
    rw [List.foldl_cons, ih hI, heq, List.filter_cons]
    split
    · rfl
    · rfl

def instancesOn (n : Node) (e : UInt8) : List (Model × Instance) :=
  (n.elements[e.toNat]?).elim [] Element.instances

theorem instances_restrict (el : Element) (keep : Model → Bool) :
    (el.restrict keep).instances = el.instances.filter fun x => keep x.1 := by
  simp only [Element.instances, List.filter_filterMap, Element.get_restrict]
  congr 1
  funext m
  cases hk : keep m <;> cases el.get m <;> simp [Option.filter, hk]

theorem instancesOn_focus (n : Node) (keep : Scope) (e : UInt8) :
    (n.focus keep).instancesOn e = (n.instancesOn e).filter fun x => keep e x.1 := by
  simp only [instancesOn, focus, List.getElem?_mapIdx, UInt8.ofNat_toNat]
  cases n.elements[e.toNat]? with
  | none => rfl
  | some el => exact instances_restrict el (keep e)

def storable (n : Node) (e : UInt8) (slot : Nat) : List Model :=
  ((n.instancesOn e).filter fun x => slot < x.2.scenes.length).map Prod.fst

/-- What the recall of a scene asks for. -/
def recalled (n : Node) (e : UInt8) (slot transition : Nat) : List Request :=
  (n.instancesOn e).filterMap fun x =>
    (x.2.scene? slot).map fun v => Request.scene e x.1 v transition

theorem storeScene_eq (n : Node) (e : UInt8) (slot : Nat) : (n.storeScene e slot).1 =
    if n.config.sceneSlots.toNat ≤ slot then n
    else (n.storable e slot).foldl (fun n m => n.save e m)
      ((n.storable e slot).foldl (fun n m => n.storeIn e slot m) n) := by
  unfold storeScene storable instancesOn
  split
  next h => simp [h]
  next el h =>
    simp only [h, Option.elim_some]
    split
    · rfl
    · split
      next hnil => rw [hnil]; rfl
      · rfl

theorem recallScene_eq (n : Node) (e : UInt8) (slot transition : Nat) :
    (n.recallScene e slot transition).1 =
      if n.config.sceneSlots.toNat ≤ slot then n
      else (n.recalled e slot transition).foldl (carryOut follow) n := by
  unfold recallScene recalled instancesOn
  split
  next h => simp [h]
  next el h =>
    simp only [h, Option.elim_some]
    split
    · rfl
    · split
      next hnil => rw [hnil]; rfl
      · rfl

theorem storable_focus (n : Node) (keep : Scope) (e : UInt8) (slot : Nat) :
    (n.focus keep).storable e slot = (n.storable e slot).filter (keep e) := by
  simp only [storable, instancesOn_focus, List.filter_map, List.filter_filter, Function.comp_def,
    Bool.and_comm]

theorem recalled_focus (n : Node) (keep : Scope) (e : UInt8) (slot transition : Nat) :
    (n.focus keep).recalled e slot transition =
      (n.recalled e slot transition).filter fun r => keep r.element r.model := by
  simp only [recalled, instancesOn_focus, List.filter_filterMap, List.filterMap_filter]
  congr 1
  funext x
  cases hv : x.2.scene? slot with
  | none => simp
  | some v => simp [Option.filter, Request.scene]

theorem focus_storeScene (n : Node) (keep : Scope) (e : UInt8) (slot : Nat) :
    (n.storeScene e slot).1.focus keep = ((n.focus keep).storeScene e slot).1 := by
  have hstore (n : Node) (m : Model) (_ : True) : True ∧ (n.storeIn e slot m).focus keep =
      if keep e m then (n.focus keep).storeIn e slot m else n.focus keep := by
    refine ⟨trivial, ?_⟩
    rw [storeIn, focus_modify]
    split
    · rfl
    next hk => rw [modify_of_absent (get?_focus_of_not_keep hk)]
  have hsave (n : Node) (m : Model) (_ : True) : True ∧ (n.save e m).focus keep =
      if keep e m then (n.focus keep).save e m else n.focus keep := by
    refine ⟨trivial, ?_⟩
    rw [focus_save]
    split
    · rfl
    next hk => rw [save_of_absent (get?_focus_of_not_keep hk)]
  have hconfig : (n.focus keep).config = n.config := rfl
  rw [storeScene_eq, storeScene_eq, hconfig, storable_focus]
  split
  · rfl
  · rw [focus_foldl hsave _ trivial, focus_foldl hstore _ trivial]

theorem focus_recallScene (hb : n.IsUnbound) (o : n.timers.Ordered) (e : UInt8)
    (slot transition : Nat) : (n.recallScene e slot transition).1.focus keep =
      ((n.focus keep).recallScene e slot transition).1 := by
  have hcarryOut (n : Node) (r : Request) (h : n.IsUnbound ∧ n.timers.Ordered) :
      ((n.carryOut follow r).IsUnbound ∧ (n.carryOut follow r).timers.Ordered) ∧
      (n.carryOut follow r).focus keep =
        if keep r.element r.model then (n.focus keep).carryOut follow r else n.focus keep := by
    have he : n.Evolves (n.carryOut follow r) := evolves_carryOut evolves_follow _ r
    exact ⟨⟨h.1.evolves he, he.ordered h.2⟩, focus_carryOut h.1 h.2⟩
  have hconfig : (n.focus keep).config = n.config := rfl
  rw [recallScene_eq, recallScene_eq, hconfig, recalled_focus]
  split
  · rfl
  · exact focus_foldl hcarryOut _ ⟨hb, o⟩

theorem instancesOn_eq_nil (hk : ∀ m, ¬ keep e m = true) : (n.focus keep).instancesOn e = [] := by
  rw [instancesOn_focus, List.filter_eq_nil_iff]
  exact fun x _ => hk x.1

theorem storeScene_focus_of_not_keep (hk : ∀ m, ¬ keep e m = true) (slot : Nat) :
    ((n.focus keep).storeScene e slot).1 = n.focus keep := by
  rw [storeScene_eq, storable, instancesOn_eq_nil hk]
  exact ite_self _

theorem recallScene_focus_of_not_keep (hk : ∀ m, ¬ keep e m = true) (slot transition : Nat) :
    ((n.focus keep).recallScene e slot transition).1 = n.focus keep := by
  rw [recallScene_eq, recalled, instancesOn_eq_nil hk]
  exact ite_self _

/-! ## Queries, light settings, snapshots and power-up -/

theorem focus_query : (n.query e m).1.focus keep =
    if keep e m then ((n.focus keep).query e m).1 else n.focus keep := by
  rw [query, query]
  dsimp only
  rw [focus_emit]
  by_cases hk : keep e m = true
  · rw [present?_focus hk]
    rfl
  · rw [if_neg hk]
    exact if_neg hk

theorem focus_publishPeriodically : (n.publishPeriodically e m).1.focus keep =
    if keep e m then ((n.focus keep).publishPeriodically e m).1 else n.focus keep := by
  rw [publishPeriodically_fst, publishPeriodically_fst, focus_publish]
  split
  · rfl
  next hk => exact publish_of_absent (get?_focus_of_not_keep hk)

theorem focus_reportLightSetting {status : Status} :
    (n.reportLightSetting e status).1.focus keep =
      if keep e .lightness then ((n.focus keep).reportLightSetting e status).1
      else n.focus keep := by
  rw [reportLightSetting, reportLightSetting]
  dsimp only
  rw [focus_emit]
  by_cases hk : keep e .lightness = true
  · rw [present?_focus hk]
    rfl
  · rw [if_neg hk]
    exact if_neg hk

theorem focus_setLightDefault {l : Lightness} : (n.setLightDefault e l).1.focus keep =
    if keep e .lightness then ((n.focus keep).setLightDefault e l).1 else n.focus keep := by
  let choose (i : Instance) : Instance := { i with light := { i.light with default := l } }
  have hset : (n.modify e .lightness choose).focus keep =
      (n.focus keep).modify e .lightness choose := focus_modify
  by_cases hk : keep e .lightness = true
  · rw [if_pos hk, setLightDefault, setLightDefault, hosts_focus hk]
    split
    · rw [focus_reportLightSetting, if_pos hk, focus_save, hset]
    · rw [focus_reportLightSetting, if_pos hk]
  · have habsent := get?_focus_of_not_keep (n := n) hk
    rw [if_neg hk, setLightDefault]
    split
    · rw [focus_reportLightSetting, if_neg hk, focus_save, hset, modify_of_absent habsent,
        save_of_absent habsent]
    · rw [focus_reportLightSetting, if_neg hk]

theorem focus_setLightRange (hb : n.IsUnbound) (o : n.timers.Ordered) {lo hi : Lightness} :
    (n.setLightRange e lo hi).1.focus keep =
      if keep e .lightness then ((n.focus keep).setLightRange e lo hi).1 else n.focus keep := by
  have hset (light : LightMemory) : (n.modify e .lightness fun i => { i with light }).focus keep =
      (n.focus keep).modify e .lightness fun i => { i with light } := focus_modify
  have hrequest (light : LightMemory) (l : Lightness) :
      ((n.modify e .lightness fun i => { i with light }).request
        (.application e (.lightness l) 0 0)).1.focus keep =
      if keep e .lightness then
        (((n.focus keep).modify e .lightness fun i => { i with light }).request
          (.application e (.lightness l) 0 0)).1
      else (n.focus keep).modify e .lightness fun i => { i with light } := by
    rw [← hset]
    refine focus_carryOut ?_ ?_
    · exact hb
    · exact o
  by_cases hk : keep e .lightness = true
  · rw [if_pos hk, setLightRange, setLightRange, get?_focus_of_keep hk]
    split
    · rw [focus_reportLightSetting, if_pos hk]
    · split
      · dsimp only
        split
        all_goals
          split
          · rw [focus_reportLightSetting, if_pos hk, focus_save, hset]
          · rw [hrequest, if_pos hk]
      · rw [focus_reportLightSetting, if_pos hk]
  · have habsent := get?_focus_of_not_keep (n := n) hk
    rw [if_neg hk, setLightRange]
    split
    · rw [focus_reportLightSetting, if_neg hk]
    · split
      · dsimp only
        split
        all_goals
          split
          · rw [focus_reportLightSetting, if_neg hk, focus_save, hset, modify_of_absent habsent,
              save_of_absent habsent]
          · rw [hrequest, if_neg hk, modify_of_absent habsent]
      · rw [focus_reportLightSetting, if_neg hk]

theorem focus_loaded (image : Image) :
    (n.loaded image).focus keep = (n.focus keep).loaded image := by
  rw [loaded, loaded, focus_modify, focus_cancel, focus_cancel]

theorem focus_restore (s : Snapshot) : (n.handle (.restore s)).focus keep =
    if keep s.image.element s.image.model then (n.focus keep).handle (.restore s)
    else n.focus keep := by
  by_cases hk : keep s.image.element s.image.model = true
  · rw [if_pos hk, handle, handle, restore_eq, restore_eq, hosts_focus hk]
    cases s.validate with
    | error err => rfl
    | ok u =>
      cases n.hosts s.image.element s.image.model with
      | false => rfl
      | true => exact focus_loaded s.image
  · have habsent := get?_focus_of_not_keep (n := n) hk
    rw [if_neg hk]
    rcases restore_cases n s with ⟨-, heq⟩ | ⟨-, -, -, heq⟩
    · rw [heq]
    · rw [heq, focus_loaded, loaded, cancel_focus_of_not_keep, cancel_focus_of_not_keep,
        modify_of_absent habsent]
      · exact hk
      · exact hk

theorem powerUp_of_isUnbound (hb : n.IsUnbound) : n.powerUp.1 = n := by
  have hfold (xs : List (UInt8 × Model × Instance)) :
      xs.foldl (fun n x => n.follow x.1 x.2.1 x.2.2.present) n = n := by
    induction xs with
    | nil => rfl
    | cons x xs ih => rw [List.foldl_cons, follow_of_isUnbound hb, ih]
  exact hfold _

end MeshNode.Node
