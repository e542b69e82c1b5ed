import Mathlib.Data.List.Infix
import MeshNode.Proofs.Isolation.CallsInPart
import MeshNode.Proofs.Isolation.TimeInPart

/-! # Instances are isolated

As long as a node has no bindings, what happens to an instance is made by the calls that are about
it, those about the default transition time of its element, the scenes of the element and whatever
concerns the whole node. Leaving all other calls out of a run changes nothing that can be seen of
the instance.
-/

namespace MeshNode

inductive Address where
  | node
  | element (element : UInt8)
  | instance (element : UInt8) (model : Model)

def Call.address : Call → Address
  | .receive c message => .instance c.element message.model
  | .request r => .instance r.element r.model
  | .query e m | .publish e m | .publishPeriodically e m | .sendStatus e m .. | .keepSaved e m =>
    .instance e m
  | .storeScene e _ | .recallScene e .. => .element e
  | .setLightDefault e _ | .setLightRange e .. => .instance e .lightness
  | .restore s => .instance s.image.element s.image.model
  | _ => .node

/-- Whether something that the address stands for belongs to a part of the node. -/
def Address.isWithin (keep : Scope) : Address → Bool
  | .node => true
  | .element e => Model.all.any (keep e)
  | .instance e m => keep e m

/-- Whether an operation is about something in a part of the node. Time passes everywhere. -/
def Operation.isWithin (keep : Scope) : Operation → Bool
  | .call x => x.address.isWithin keep
  | .advance _ | .advanceTo _ => true

/-- With an instance, the part has the default transition time of its element. -/
def Scope.IsClosed (keep : Scope) : Prop :=
  ∀ e m, keep e m = true → keep e .defaultTransition = true

/-- The part that an instance depends on: itself and the default transition time of its element. -/
def domain (e : UInt8) (m : Model) : Scope := fun e' m' =>
  e' = e && (m' = m || m' = .defaultTransition)

theorem domain_self (e : UInt8) (m : Model) : domain e m e m = true := by simp [domain]

theorem isClosed_domain (e : UInt8) (m : Model) : (domain e m).IsClosed := by
  intro e' m' hk
  simp only [domain, Bool.and_eq_true, decide_eq_true_eq] at hk
  simp [domain, hk.1]

/-- What can be seen of an instance at some time: its state, the time left before its timers fire,
and the events, messages, images and requests about it, latest first. -/
structure View where
  now : Nat
  state : Option Instance
  change : Option Nat
  expiry : Option Nat
  effects : List Effect
  deriving DecidableEq

namespace Node

variable {n n₁ n₂ : Node} {keep : Scope} {e : UInt8} {m : Model} {op : Operation}
  {ops : List Operation}

def view (n : Node) (e : UInt8) (m : Model) : View where
  now := n.now
  state := n.get? e m
  change := n.timers.remaining? (transitionTimer e m)
  expiry := n.timers.remaining? (transactionTimer e m)
  effects := n.log.filter fun x => x.subject? = some (e, m)

theorem view_focus (hk : keep e m = true) : (n.focus keep).view e m = n.view e m := by
  have hchange : (n.focus keep).timers.remaining? (transitionTimer e m) =
      n.timers.remaining? (transitionTimer e m) := remaining?_focus hk
  have hexpiry : (n.focus keep).timers.remaining? (transactionTimer e m) =
      n.timers.remaining? (transactionTimer e m) := remaining?_focus hk
  have heffects : (n.focus keep).log.filter (fun x => x.subject? = some (e, m)) =
      n.log.filter fun x => x.subject? = some (e, m) := by
    simp only [focus, List.filter_filter]
    congr 1
    funext x
    by_cases hx : x.subject? = some (e, m)
    · simp [Effect.isWithin, hx, hk]
    · simp [hx]
  rw [view, view, get?_focus_of_keep hk, hchange, hexpiry, heffects]
  rfl

/-! ## A step of two runs -/

theorem focus_handle (h : n.Sound) (ho : n.Originated) (hb : n.IsUnbound) (hc : keep.IsClosed)
    (x : Call) : (n.handle x).focus keep =
      if x.address.isWithin keep then (n.focus keep).handle x else n.focus keep := by
  have helement {e : UInt8} (hk : ¬ (Address.element e).isWithin keep = true) (m : Model) :
      ¬ keep e m = true :=
    fun hm => hk (List.any_eq_true.mpr ⟨m, Model.mem_all m, hm⟩)
  cases x with
  | receive c message =>
    split
    next hk => exact congrArg Prod.fst (focus_receive hb h.ordered (hc _ _ hk) hk)
    next hk => exact focus_receive_of_not_keep hb h.ordered h.typed ho hk
  | request r => exact focus_carryOut hb h.ordered
  | query e m => exact focus_query
  | publish e m =>
    rw [handle, focus_publish]
    split
    · rfl
    next hk => exact publish_of_absent (get?_focus_of_not_keep hk)
  | publishPeriodically e m => exact focus_publishPeriodically
  | sendStatus e m dst appKey unicast =>
    rw [handle, focus_sendStatus]
    split
    · rfl
    next hk => exact sendStatus_of_absent (get?_focus_of_not_keep hk)
  | storeScene e slot =>
    rw [handle, focus_storeScene]
    split
    · rfl
    next hk => exact storeScene_focus_of_not_keep (helement hk) slot
  | recallScene e slot transition =>
    rw [handle, focus_recallScene hb h.ordered]
    split
    · rfl
    next hk => exact recallScene_focus_of_not_keep (helement hk) slot transition
  | powerUp =>
    rw [handle, handle, powerUp_of_isUnbound hb, powerUp_of_isUnbound (n := n.focus keep) hb]
    rfl
  | setLightDefault e l => exact focus_setLightDefault
  | setLightRange e lo hi => exact focus_setLightRange hb h.ordered
  | reset => exact focus_reset h
  | restore s => exact focus_restore s
  | listen m name => rfl
  | keepSaved e m =>
    rw [handle, keepSaved, focus_modify]
    split
    · rfl
    next hk => exact modify_of_absent (get?_focus_of_not_keep hk)
  | bind link rule => rfl
  | bindLightnessToLevel lightness level => rfl
  | bindLightnessToOnOff lightness onOff => rfl
  | bindOnOffToOnPowerUp power onOff => rfl
  | bindLightnessToOnPowerUp power lightness => rfl

theorem focus_perform (hn : n.IsReached) (hb : n.IsUnbound) (hc : keep.IsClosed) (op : Operation) :
    (n.perform op).focus keep =
      if op.isWithin keep then (n.focus keep).perform op else n.focus keep := by
  cases op with
  | call x => exact focus_handle hn.sound hn.originated hb hc x
  | advance ms => exact focus_advance (hn.steady hb) hn.sound hb
  | advanceTo horizon => exact focus_advanceTo (hn.steady hb) hn.sound hb

/-! ## Runs -/

theorem IsReached.run (hn : n.IsReached) (ops : List Operation) : (n.run ops).IsReached := by
  obtain ⟨n₀, before, hn₀, rfl⟩ := hn
  exact ⟨n₀, before ++ ops, hn₀, (run_append n₀ before ops).symm⟩

theorem IsUnbound.of_focus_eq (hb : n₁.IsUnbound) (heq : n₁.focus keep = n₂.focus keep) :
    n₂.IsUnbound := by
  have hfocus : (n₁.focus keep).bindings = (n₂.focus keep).bindings := by rw [heq]
  have hbindings : n₁.bindings = n₂.bindings := hfocus
  rwa [IsUnbound, ← hbindings]

theorem outcome_of_focus_eq {c : Envelope} {message : Message} (h₁ : n₁.Sound) (h₂ : n₂.Sound)
    (hb : n₁.IsUnbound) (hc : keep.IsClosed) (hk : keep c.element message.model = true)
    (heq : n₁.focus keep = n₂.focus keep) :
    (n₁.receive c message).2 = (n₂.receive c message).2 := by
  have hk' := hc _ _ hk
  calc (n₁.receive c message).2
      = ((n₁.focus keep).receive c message).2 := by rw [← focus_receive hb h₁.ordered hk' hk]; rfl
    _ = ((n₂.focus keep).receive c message).2 := by rw [heq]
    _ = (n₂.receive c message).2 := by
      rw [← focus_receive (hb.of_focus_eq heq) h₂.ordered hk' hk]
      rfl

/-- Two nodes that are the same in a part stay so when only what is about the part is done to the
second. -/
theorem focus_run (h₁ : n₁.IsReached) (h₂ : n₂.IsReached) (hc : keep.IsClosed)
    (hb : ∀ pre, pre <+: ops → (n₁.run pre).IsUnbound) (heq : n₁.focus keep = n₂.focus keep) :
    (n₁.run ops).focus keep = (n₂.run (ops.filter (·.isWithin keep))).focus keep := by
  induction ops generalizing n₁ n₂ with
  | nil => exact heq
  | cons op ops ih =>
    have hb₁ : n₁.IsUnbound := hb [] (List.nil_prefix)
    have hb₂ : n₂.IsUnbound := hb₁.of_focus_eq heq
    have hb' (pre : List Operation) (hpre : pre <+: ops) :
        ((n₁.perform op).run pre).IsUnbound :=
      hb (op :: pre) (List.cons_prefix_cons.mpr ⟨rfl, hpre⟩)
    have hstep := focus_perform h₁ hb₁ hc op
    rw [List.filter_cons]
    split
    next hop =>
      rw [if_pos hop, heq] at hstep
      have hstep₂ := focus_perform h₂ hb₂ hc op
      rw [if_pos hop] at hstep₂
      exact ih (h₁.run [op]) (h₂.run [op]) hb' (hstep.trans hstep₂.symm)
    next hop =>
      rw [if_neg hop] at hstep
      exact ih (h₁.run [op]) h₂ hb' (hstep.trans heq)

/-- As long as a node has no bindings, an instance goes through a run as it goes through what is
left of the run without the operations that are about others: at every moment all that can be seen
of it is the same, and so is what becomes of a message to it. -/
theorem view_isolated (hn : n.IsReached)
    (hb : ∀ pre, pre <+: ops → (n.run pre).bindings.bindings = []) (e : UInt8) (m : Model) :
    ∀ pre, pre <+: ops →
      (n.run pre).view e m = (n.run (pre.filter (·.isWithin (domain e m)))).view e m ∧
      ∀ c message, c.element = e → message.model = m →
        ((n.run pre).receive c message).2 =
          ((n.run (pre.filter (·.isWithin (domain e m)))).receive c message).2 := by
  intro pre hpre
  have hclosed := isClosed_domain e m
  -- The part that the instance depends on is the same after both runs, and it shows all there is to
  -- see.
  have hfocus : (n.run pre).focus (domain e m) =
      (n.run (pre.filter (·.isWithin (domain e m)))).focus (domain e m) :=
    focus_run hn hn hclosed (fun _ h => hb _ (h.trans hpre)) rfl
  constructor
  · rw [← view_focus (domain_self e m), hfocus, view_focus (domain_self e m)]
  · rintro c message rfl rfl
    exact outcome_of_focus_eq (hn.run _).sound (hn.run _).sound (hb pre hpre) hclosed
      (domain_self ..) hfocus

def crowd : Node :=
  ⟨{}, [((Element.empty.set .onOff (some (.new .onOff 16 32))).set .level
      (some (.new .level 16 32))).set .defaultTransition (some (.new .defaultTransition 16 32)),
    Element.empty.set .level (some (.new .level 16 32))], .withCapacity 30, .startingAt 0, .none,
    true, 0, []⟩

theorem isBuilt_crowd : crowd.IsBuilt :=
  ⟨⟨{}, [⟨[.onOff, .level, .defaultTransition], [], []⟩, .single .level]⟩, 0, true, rfl⟩

/-- A level on its way, next to a switch and another level that are on theirs. -/
theorem view_isolated_crowd :
    let ops : List Operation :=
      [.call (.request (.application 0 (.onOff .on) 500 4)),
        .call (.receive ⟨0, 7, 0, true⟩ (.set .defaultTransition [66] false)),
        .call (.receive ⟨0, 7, 0, true⟩ (.set .level [16, 0, 1] true)), .advance 700,
        .call (.receive ⟨1, 7, 0, true⟩ (.levelMove [1, 0, 2] true)), .call (.storeScene 0 2),
        .call (.storeScene 1 2), .advance 1500]
    let others := ops.filter (·.isWithin (domain 0 .level))
    (∀ pre, pre <+: ops → (crowd.run pre).bindings.bindings = []) ∧ others.length = 5 ∧
      (crowd.run ops).view 0 .level = (crowd.run others).view 0 .level ∧
      (crowd.run ops).present? 0 .level = some (.level 16) := by
  intro ops others
  have hn : crowd.IsReached := ⟨crowd, [], isBuilt_crowd, rfl⟩
  have hb : ∀ pre, pre <+: ops → (crowd.run pre).bindings.bindings = [] := by
    intro pre hpre
    have hall : ∀ pre ∈ ops.inits, (crowd.run pre).bindings.bindings = [] := by decide +kernel
    exact hall pre ((List.mem_inits pre ops).mpr hpre)
  refine ⟨hb, by decide +kernel, ?_, by decide +kernel⟩
  exact (view_isolated hn hb 0 .level ops List.prefix_rfl).1

end Node

end MeshNode
