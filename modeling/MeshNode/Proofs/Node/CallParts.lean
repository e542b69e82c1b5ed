import MeshNode.Node.Run
import MeshNode.Proofs.Transition.RequestCourse

/-! # The work of a node

Nearly all calls come down to a few things: telling the outside, keeping books on an instance,
starting a change and letting bindings follow a value. What each of them keeps, every call keeps
that is made up of them.
-/

namespace MeshNode

def Call.registrations : Call → List (Binding Rule)
  | .bind link rule => [⟨link, rule⟩]
  | .bindLightnessToLevel lightness level =>
    [⟨⟨.lightnessActual, .level, lightness, level⟩, Rule.lightnessToLevel⟩,
      ⟨⟨.level, .lightnessActual, level, lightness⟩, Rule.levelToLightness⟩]
  | .bindLightnessToOnOff lightness onOff =>
    [⟨⟨.lightnessActual, .onOff, lightness, onOff⟩, Rule.lightnessToOnOff⟩,
      ⟨⟨.onOff, .lightnessActual, onOff, lightness⟩, Rule.onOffToLightness⟩]
  | .bindOnOffToOnPowerUp power onOff =>
    [⟨⟨.onPowerUp, .onOff, power, onOff⟩, Rule.onPowerUpToOnOff⟩]
  | .bindLightnessToOnPowerUp power lightness =>
    [⟨⟨.onPowerUp, .lightnessActual, power, lightness⟩, Rule.onPowerUpToLightness⟩]
  | _ => []

namespace Node

variable {n n' n₁ n₂ : Node} {e : UInt8} {m : Model} {v : Value}

/-- The first node becomes the second by changes that are started, bindings that are followed and
the keeping of books. -/
inductive Works : Node → Node → Prop where
  | tells {n n' : Node} (h : n.Tells n') : Works n n'
  /-- Nothing that a change runs through is touched, no transaction and no range, and nobody new
  waits for an answer. -/
  | books {n : Node} (e : UInt8) (m : Model) {f : Instance → Instance}
      (hc : ∀ i, (f i).course = i.course) (ht : ∀ i, (f i).transaction = i.transaction)
      (hp : ∀ i, (f i).pendingReply = i.pendingReply ∨ (f i).pendingReply = none)
      (hl : ∀ i, (f i).light.range = i.light.range) : Works n (n.modify e m f)
  | start {n : Node} (e : UInt8) (v : Value) (t d : Nat) (s : Source) :
      Works n (n.start follow e v.model v t d s none)
  | follow (n : Node) (e : UInt8) (m : Model) (v : Value) : Works n (n.follow e m v)
  | listeners (n : Node) (listeners : Listeners) : Works n { n with listeners }
  | trans {n n₁ n₂ : Node} : Works n n₁ → Works n₁ n₂ → Works n n₂

theorem Works.refl (n : Node) : n.Works n := .tells (.refl n)

/-! ## What work keeps -/

theorem watch_modify_of_course {f : Instance → Instance} (hf : ∀ i, (f i).course = i.course)
    (e' : UInt8) (m' : Model) : (n.modify e m f).watch e' m' = n.watch e' m' := by
  by_cases hx : (e', m') = (e, m)
  · obtain ⟨rfl, rfl⟩ := Prod.mk.injEq .. ▸ hx
    have hget : ((n.modify e' m' f).get? e' m').map Instance.course =
        (n.get? e' m').map Instance.course := by
      rw [get?_modify_self, Option.map_map]
      exact congrArg (Option.map · _) (funext hf)
    exact Prod.ext hget rfl
  · exact watch_modify_of_ne hx

theorem Works.evolves (h : n.Works n') : n.Evolves n' := by
  induction h with
  | tells h => exact h.evolves
  | books e m hc ht hp _ => exact evolves_modify ht hp fun i hi => hi.congr (hc i)
  | start e v t d s => exact evolves_start evolves_follow rfl (by simp)
  | follow n e m v => exact evolves_follow n e m v
  | listeners n _ => exact { Evolves.refl n with }
  | trans _ _ ih ih' => exact ih.trans ih'

theorem Works.keepsToRequests (h : n.Works n') : n.KeepsToRequests n' := by
  induction h with
  | tells h => exact (KeepsToRequests.refl _).tells h
  | books e m hc ht hp _ =>
    exact .of_watch rfl rfl List.suffix_rfl fun e' m' => ⟨rfl, watch_modify_of_course hc e' m'⟩
  | start e v t d s => exact keepsToRequests_start keepsToRequests_follow
  | follow n e m v => exact keepsToRequests_follow n e m v
  | listeners n _ => exact .of_watch rfl rfl List.suffix_rfl fun _ _ => ⟨rfl, rfl⟩
  | trans _ _ ih ih' => exact ih.trans ih'

/-! ## What scenes and light settings come to -/

theorem storeScene_cases (n : Node) (e : UInt8) (slot : Nat) :
    ((n.storeScene e slot).1 = n ∧ (n.storeScene e slot).2 ≠ .success) ∨
      ∃ models : List Model, n.storeScene e slot = (models.foldl (fun n m => n.save e m)
        (models.foldl (fun n m => n.storeIn e slot m) n), .success) := by
  unfold storeScene
  split
  · exact .inl ⟨rfl, by simp⟩
  · split
    · exact .inl ⟨rfl, by simp⟩
    · dsimp only
      split
      · exact .inl ⟨rfl, by simp⟩
      · exact .inr ⟨_, rfl⟩

theorem recallScene_cases (n : Node) (e : UInt8) (slot transition : Nat) :
    ((n.recallScene e slot transition).1 = n ∧ (n.recallScene e slot transition).2 ≠ .success) ∨
      ∃ requests : List Request, (∀ r ∈ requests, r.element = e) ∧
        n.recallScene e slot transition = (requests.foldl (carryOut follow) n, .success) := by
  unfold recallScene
  split
  · exact .inl ⟨rfl, by simp⟩
  · split
    · exact .inl ⟨rfl, by simp⟩
    · dsimp only
      split
      · exact .inl ⟨rfl, by simp⟩
      · refine .inr ⟨_, fun r hr => ?_, rfl⟩
        obtain ⟨_, -, hr⟩ := List.mem_filterMap.mp hr
        obtain ⟨_, -, rfl⟩ := Option.map_eq_some_iff.mp hr
        rfl

def retuned (n : Node) (e : UInt8) (light : LightMemory) : Node :=
  n.modify e .lightness fun i => { i with light }

theorem check_lightness {i : Instance} (hi : n.get? e .lightness = some i) (l : Lightness) :
    n.check e .lightness (.lightness l) = .success := by
  rw [check, hosts, hi]
  rfl

theorem check_retuned {i : Instance} (hi : n.get? e .lightness = some i) (light : LightMemory)
    (l : Lightness) : (n.retuned e light).check e .lightness (.lightness l) = .success := by
  have hset : (n.retuned e light).get? e .lightness = some { i with light } := by
    rw [retuned, get?_modify_self, hi]
    rfl
  exact check_lightness hset l

/-- A range is refused, or the lamp has it from now on and is saved or, if it strays from the range,
asked to go back to it. -/
theorem setLightRange_cases (n : Node) (e : UInt8) (lo hi : Lightness) :
    (∃ status, status ≠ .success ∧ n.setLightRange e lo hi = n.reportLightSetting e status) ∨
      ∃ i light, n.get? e .lightness = some i ∧ LightMemory.isRange lo hi = true ∧
        light = { i.light with rangeMin := lo, rangeMax := hi } ∧
        (n.setLightRange e lo hi =
            ((n.retuned e light).save e .lightness).reportLightSetting e .success ∨
          ∃ l, n.setLightRange e lo hi =
            (n.retuned e light).request (.application e (.lightness l) 0 0)) := by
  unfold setLightRange
  split
  next => exact .inl ⟨_, by simp, rfl⟩
  next i hget =>
    split
    next hrange =>
      refine .inr ⟨i, _, hget, hrange, rfl, ?_⟩
      dsimp only
      split
      all_goals
        split
        · exact .inl rfl
        · exact .inr ⟨_, rfl⟩
    next => exact .inl ⟨_, by simp, rfl⟩

/-! ## Calls that are nothing but work -/

theorem works_carryOut (n : Node) (r : Request) : n.Works (n.carryOut follow r) := by
  unfold carryOut
  split
  next h =>
    obtain ⟨e, m, v, t, d, s⟩ := r
    obtain rfl : v.model = m := model_of_check h rfl
    exact .start e v t d s
  next => exact .tells (tells_emit n _)

theorem works_foldl {α : Type} {f : Node → α → Node} (hf : ∀ n a, Works n (f n a)) (as : List α)
    (n : Node) : n.Works (as.foldl f n) :=
  List.foldlRecOn as f (.refl n) fun n' h a _ => h.trans (hf n' a)

theorem works_save (n : Node) (e : UInt8) (m : Model) : n.Works (n.save e m) :=
  .tells (tells_save n e m)

theorem works_reportLightSetting (n : Node) (e : UInt8) (status : Status) :
    n.Works (n.reportLightSetting e status).1 :=
  .tells (tells_emit n _)

theorem works_storeScene (n : Node) (e : UInt8) (slot : Nat) : n.Works (n.storeScene e slot).1 := by
  rcases storeScene_cases n e slot with ⟨heq, -⟩ | ⟨models, heq⟩
  · rw [heq]
    exact .refl n
  · rw [heq]
    refine .trans (works_foldl (fun n m => ?_) _ n) (works_foldl (fun n m => works_save n e m) _ _)
    exact .books e m (fun _ => rfl) (fun _ => rfl) (fun _ => .inl rfl) fun _ => rfl

theorem works_recallScene (n : Node) (e : UInt8) (slot transition : Nat) :
    n.Works (n.recallScene e slot transition).1 := by
  rcases recallScene_cases n e slot transition with ⟨heq, -⟩ | ⟨requests, -, heq⟩
  · rw [heq]
    exact .refl n
  · rw [heq]
    exact works_foldl works_carryOut _ n

theorem works_setLightDefault (n : Node) (e : UInt8) (l : Lightness) :
    n.Works (n.setLightDefault e l).1 := by
  unfold setLightDefault
  split
  · refine .trans ?_ ((works_save _ e .lightness).trans (works_reportLightSetting _ e .success))
    exact .books e .lightness (fun _ => rfl) (fun _ => rfl) (fun _ => .inl rfl) fun _ => rfl
  · exact works_reportLightSetting n e _

theorem works_setLightRange (n : Node) (e : UInt8) (lo hi : Lightness) :
    n.Works (n.setLightRange e lo hi).1 ∨
      ∃ light, (n.retuned e light).Works (n.setLightRange e lo hi).1 := by
  rcases setLightRange_cases n e lo hi with
    ⟨status, -, heq⟩ | ⟨-, light, -, -, -, heq | ⟨l, heq⟩⟩
  · rw [heq]
    exact .inl (works_reportLightSetting n e status)
  · rw [heq]
    exact .inr ⟨light, (works_save _ e .lightness).trans (works_reportLightSetting _ e .success)⟩
  · rw [heq]
    exact .inr ⟨light, works_carryOut _ _⟩

theorem works_powerUp (n : Node) : n.Works n.powerUp.1 := by
  refine works_foldl ?_ _ n
  rintro n ⟨e, m, i⟩
  exact .follow n e m i.present

/-! ## All calls -/

theorem mem_register {t : BindingTable Rule} {link : Link} {rule : Rule} {b : Binding Rule}
    (h : b ∈ (t.register link rule).1.bindings) : b ∈ t.bindings ∨ b = ⟨link, rule⟩ := by
  unfold BindingTable.register at h
  split at h
  · exact .inl h
  · split at h
    · exact .inl h
    · rcases List.mem_append.mp h with h | h
      · exact .inl h
      · exact .inr (List.mem_singleton.mp h)

theorem subset_register (t : BindingTable Rule) (link : Link) (rule : Rule) :
    t.bindings ⊆ (t.register link rule).1.bindings := by
  unfold BindingTable.register
  split
  · exact List.Subset.refl _
  · split
    · exact List.Subset.refl _
    · exact List.subset_append_left ..

/-- The second table has the bindings of the first and maybe some others. -/
structure Registers (t t' : BindingTable Rule) (new : List (Binding Rule)) : Prop where
  old : t.bindings ⊆ t'.bindings
  mem : ∀ b ∈ t'.bindings, b ∈ t.bindings ∨ b ∈ new

theorem registers_one (t : BindingTable Rule) (link : Link) (rule : Rule) :
    Registers t (t.register link rule).1 [⟨link, rule⟩] :=
  ⟨subset_register t link rule, fun _ hb => (mem_register hb).imp_right List.mem_singleton.mpr⟩

theorem registers_two (t : BindingTable Rule) (link link' : Link) (rule rule' : Rule) :
    Registers t ((t.register link rule).1.register link' rule').1
      [⟨link, rule⟩, ⟨link', rule'⟩] := by
  refine ⟨List.Subset.trans (subset_register ..) (subset_register ..), fun b hb => ?_⟩
  rcases mem_register hb with hb | rfl
  · rcases mem_register hb with hb | rfl
    · exact .inl hb
    · simp
  · simp

/-- The call is nothing but work, once the light settings are changed if it is about a range. -/
inductive Acts (n : Node) : Call → Prop where
  | works {x : Call} (h : n.Works (n.handle x)) : Acts n x
  | retunes {e : UInt8} {lo hi : Lightness} {light : LightMemory}
      (h : (n.retuned e light).Works (n.handle (.setLightRange e lo hi))) :
      Acts n (.setLightRange e lo hi)

theorem evolves_retuned (n : Node) (e : UInt8) (light : LightMemory) :
    n.Evolves (n.retuned e light) :=
  evolves_modify (fun _ => rfl) (fun _ => .inl rfl) fun _ hi => hi.congr rfl

theorem watch_retuned (n : Node) (e : UInt8) (light : LightMemory) (e' : UInt8) (m' : Model) :
    (n.retuned e light).watch e' m' = n.watch e' m' := by
  refine watch_modify_of_course ?_ e' m'
  exact fun _ => rfl

theorem Acts.evolves {x : Call} (h : n.Acts x) : n.Evolves (n.handle x) := by
  cases h with
  | works h => exact h.evolves
  | @retunes e lo hi light h => exact (evolves_retuned n e light).trans h.evolves

theorem Acts.keepsToRequests {x : Call} (h : n.Acts x) : n.KeepsToRequests (n.handle x) := by
  cases h with
  | works h => exact h.keepsToRequests
  | @retunes e lo hi light h =>
    have hset : n.KeepsToRequests (n.retuned e light) :=
      .of_watch rfl rfl List.suffix_rfl fun e' m' => ⟨rfl, watch_retuned n e light e' m'⟩
    exact hset.trans h.keepsToRequests

/-- A call is work, or it registers bindings, resets, restores or passes a message on. -/
theorem handle_cases (n : Node) (x : Call) :
    n.Acts x ∨
      (∃ table, n.handle x = { n with bindings := table } ∧
        Registers n.bindings table x.registrations ∧ x.registrations ≠ []) ∨
      x = .reset ∨ (∃ s, x = .restore s) ∨ ∃ c message, x = .receive c message := by
  cases x with
  | receive c message => exact .inr (.inr (.inr (.inr ⟨c, message, rfl⟩)))
  | request r => exact .inl (.works (works_carryOut n r))
  | query e m => exact .inl (.works (.tells (tells_emit n _)))
  | publish e m => exact .inl (.works (.tells (tells_publish n e m)))
  | publishPeriodically e m =>
    refine .inl (.works ?_)
    rw [handle, publishPeriodically_fst]
    exact .tells (tells_publish n e m)
  | sendStatus e m dst appKey unicast => exact .inl (.works (.tells (tells_sendStatus n e m _ _ _)))
  | storeScene e slot => exact .inl (.works (works_storeScene n e slot))
  | recallScene e slot transition => exact .inl (.works (works_recallScene n e slot transition))
  | powerUp => exact .inl (.works (works_powerUp n))
  | setLightDefault e l => exact .inl (.works (works_setLightDefault n e l))
  | setLightRange e lo hi =>
    rcases works_setLightRange n e lo hi with h | ⟨light, h⟩
    · exact .inl (.works h)
    · exact .inl (.retunes h)
  | reset => exact .inr (.inr (.inl rfl))
  | restore s => exact .inr (.inr (.inr (.inl ⟨s, rfl⟩)))
  | listen m name => exact .inl (.works (.listeners n _))
  | keepSaved e m =>
    exact .inl (.works (.books e m (fun _ => rfl) (fun _ => rfl) (fun _ => .inl rfl) fun _ => rfl))
  | bind link rule =>
    exact .inr (.inl ⟨_, rfl, registers_one _ _ _, List.cons_ne_nil _ _⟩)
  | bindLightnessToLevel lightness level =>
    exact .inr (.inl ⟨_, rfl, registers_two _ _ _ _ _, List.cons_ne_nil _ _⟩)
  | bindLightnessToOnOff lightness onOff =>
    exact .inr (.inl ⟨_, rfl, registers_two _ _ _ _ _, List.cons_ne_nil _ _⟩)
  | bindOnOffToOnPowerUp power onOff =>
    exact .inr (.inl ⟨_, rfl, registers_one _ _ _, List.cons_ne_nil _ _⟩)
  | bindLightnessToOnPowerUp power lightness =>
    exact .inr (.inl ⟨_, rfl, registers_one _ _ _, List.cons_ne_nil _ _⟩)

end Node

end MeshNode
