import MeshNode.Proofs.Node.NewNodes

/-! # Where relative changes start from

A relative change of a level starts from the value that its transaction found. Only such a change
sets the value down, and it is always one of the instance's own model: changes of state and the
bindings that follow them leave it alone.
-/

namespace MeshNode.Node

variable {n n' n'' : Node} {e : UInt8} {m : Model} {f : Instance → Instance} {v w : Value}
  {t d : Nat} {s : Source} {i : Instance} {motion : Option Motion} {k : Motion} {c : Envelope}
  {ack : Bool}

/-- The second node has the instances of the first, with the same origins of relative changes. -/
def KeepsOrigins (n n' : Node) : Prop :=
  ∀ e m, (n'.get? e m).map Instance.deltaOrigin = (n.get? e m).map Instance.deltaOrigin

def Originated (n : Node) : Prop :=
  ∀ e m i, n.get? e m = some i → ∀ v, i.deltaOrigin = some v → v.model = m

theorem KeepsOrigins.refl (n : Node) : n.KeepsOrigins n := fun _ _ => rfl

theorem Originated.keeps (h : n.Originated) (hk : n.KeepsOrigins n') : n'.Originated := by
  intro e m i hi v hv
  have hsome := hk e m
  rw [hi, Option.map_some] at hsome
  obtain ⟨j, hj, hji⟩ := Option.map_eq_some_iff.mp hsome.symm
  exact h e m j hj v (hji.trans hv)

theorem Originated.modify (h : n.Originated)
    (hf : ∀ i, n.get? e m = some i → ∀ v, (f i).deltaOrigin = some v → v.model = m) :
    (n.modify e m f).Originated := by
  intro e' m' i hi v hv
  rcases get?_modify_eq_some hi with hi | ⟨rfl, rfl, j, hj, rfl⟩
  · exact h e' m' i hi v hv
  · exact hf j hj v hv

namespace KeepsOrigins

variable (h : n.KeepsOrigins n')
include h

theorem tells (ht : n'.Tells n'') : n.KeepsOrigins n'' := by
  obtain ⟨es, rfl, -⟩ := ht
  exact h

theorem modify (hf : ∀ i, (f i).deltaOrigin = i.deltaOrigin) :
    n.KeepsOrigins (n'.modify e m f) := by
  intro e' m'
  by_cases hx : (e', m') = (e, m)
  · obtain ⟨rfl, rfl⟩ := Prod.mk.injEq .. ▸ hx
    rw [get?_modify_self, Option.map_map, ← h e' m']
    exact congrArg (Option.map · _) (funext hf)
  · rw [get?_modify_of_ne hx]
    exact h e' m'

theorem note (x : Effect) : n.KeepsOrigins (n'.note x) := h

theorem arm (timer : Timer) (after : Nat) : n.KeepsOrigins (n'.arm timer after) := h

theorem cancel (timer : Timer) : n.KeepsOrigins (n'.cancel timer) := h

theorem display : n.KeepsOrigins (n'.display e m w s) := h.modify fun _ => rfl

theorem foldl {α : Type} {f : Node → α → Node}
    (hf : ∀ n' a, n.KeepsOrigins n' → n.KeepsOrigins (f n' a)) (as : List α) :
    n.KeepsOrigins (as.foldl f n') :=
  List.foldlRecOn as f h fun n₁ h₁ a _ => hf n₁ a h₁

/-! ## Changes of state -/

section Follow

variable {follow : Follow} (hfollow : ∀ (n' : Node) (e : UInt8) (m : Model) (v : Value),
  n.KeepsOrigins n' → n.KeepsOrigins (follow n' e m v))
include hfollow

theorem passOn : n.KeepsOrigins (n'.passOn follow e m w s) := by
  rw [Node.passOn]
  split
  · exact hfollow n' e m w h
  · exact h

theorem settle : n.KeepsOrigins (n'.settle follow e m w s) := by
  rw [Node.settle]
  split
  · exact h
  · refine tells ?_ (tells_report _ e m)
    have hset := h.modify (e := e) (m := m) (f := fun i =>
      { i with
        remaining := 0, delay := 0, stepping := .none, motion := none, target := w,
        edgeResolved := false }) fun _ => rfl
    split
    · exact hset.display
    · exact hset.display.passOn hfollow

theorem embark {b : Bool} : n.KeepsOrigins (n'.embark follow e m w t s b) := by
  rw [Node.embark]
  refine tells ?_ (tells_announce _ e m)
  have harm (k : Nat) := h.arm (transitionTimer e m) k
  split
  · dsimp only
    split
    · exact .modify (hfollow _ e m w (.display (harm _))) fun _ => rfl
    · exact .display (harm _)
  · exact h

theorem program : n.KeepsOrigins (n'.program follow e m w t d s) := by
  rw [Node.program]
  split
  · exact h
  · have hset : n.KeepsOrigins (n'.modify e m fun i =>
        { i with remaining := t, delay := d, source := s, target := w }) := h.modify fun _ => rfl
    dsimp only
    split
    · exact .tells (hset.arm _ _) (tells_announce _ e m)
    · split
      · exact hset.embark hfollow
      · exact (hset.cancel _).settle hfollow

theorem start : n.KeepsOrigins (n'.start follow e m w t d s motion) := by
  rw [Node.start]
  split
  · exact h
  · dsimp only
    refine program (note ?_ _) hfollow
    exact h.modify fun _ => rfl

theorem carryOut {r : Request} : n.KeepsOrigins (n'.carryOut follow r) := by
  rw [Node.carryOut]
  split
  · exact h.start hfollow
  · exact h.tells (tells_emit n' _)

end Follow

omit h in
theorem closedUnderBindings :
    ClosedUnderBindings fun n' n'' => n.KeepsOrigins n' → n.KeepsOrigins n'' where
  refl _ := id
  trans h h' := h' ∘ h
  note _ _ _ _ h := h
  depth _ _ h := h
  carryOut hfollow _ _ h := h.carryOut hfollow

omit h in
theorem follows (n' : Node) (e : UInt8) (m : Model) (v : Value) (h : n.KeepsOrigins n') :
    n.KeepsOrigins (n'.follow e m v) :=
  closedUnderBindings.follow n' e m v h

/-! ## Progress -/

theorem visit : n.KeepsOrigins (n'.visit e m w s) := h.display.passOn follows

theorem halt : n.KeepsOrigins (n'.halt e m) := by
  rw [Node.halt]
  split
  · exact h
  · split
    · exact (h.cancel _).modify fun _ => rfl
    · refine settle ?_ follows
      exact (h.cancel _).modify fun _ => rfl

theorem stepOn : n.KeepsOrigins (n'.stepOn e m i) := by
  have hvisit := visit (e := e) (m := m) (w := i.present.shift i.stepping.increment) (s := i.source)
    (h.modify (e := e) (m := m) (f := fun i => { i with stepping := i.stepping.next }) fun _ => rfl)
  rw [Node.stepOn]
  split
  · exact hvisit.settle follows
  · exact .tells (hvisit.program follows) (tells_publish _ e m)

theorem moveOn : n.KeepsOrigins (n'.moveOn e m i k) := by
  rw [Node.moveOn]
  split
  · exact h.settle follows
  · exact .tells (h.visit.program follows) (tells_publish _ e m)

theorem endDelay : n.KeepsOrigins (n'.endDelay e m i) := by
  have hset := h.modify (e := e) (m := m)
    (f := fun i => { i with delay := 0, pendingReply := none }) fun _ => rfl
  have hrun := hset.program (e := e) (m := m) (w := i.target) (t := i.remaining) (d := 0)
    (s := i.source) follows
  rw [Node.endDelay]
  split
  · exact hrun.tells (tells_sendStatus _ e m _ _ _)
  · exact hrun

theorem onTransition : n.KeepsOrigins (n'.onTransition e m) := by
  rw [Node.onTransition]
  split
  · exact h
  · split
    · exact h.endDelay
    · split
      · split
        · exact h.moveOn
        · split
          · exact h.stepOn
          · exact h.settle follows
      · exact h

/-! ## Messages -/

theorem remember {k : UInt8} : n.KeepsOrigins (n'.remember c m k ack) := by
  refine arm ?_ _ _
  exact h.modify fun _ => rfl

theorem answerUnlessDelayed : n.KeepsOrigins (n'.answerUnlessDelayed c m) := by
  rw [Node.answerUnlessDelayed]
  split
  · exact h
  · split
    · exact h
    · split
      · refine tells ?_ (tells_sendStatus _ _ _ _ _ _)
        exact h.modify fun _ => rfl
      · exact h

theorem startForClient : n.KeepsOrigins (n'.startForClient e v t d motion) := h.start follows

theorem onSet {p : Params Value} : n.KeepsOrigins (n'.onSet c i p ack).1 := by
  rw [Node.onSet]
  split
  · exact h
  · exact h.remember.startForClient.answerUnlessDelayed

theorem onMove {p : Params Level} : n.KeepsOrigins (n'.onMove c i p ack).1 := by
  rw [Node.onMove]
  split
  · exact h
  · refine answerUnlessDelayed ?_
    split
    · exact h.remember.halt
    · split
      · exact h.remember.startForClient
      · exact h.remember

theorem store : n.KeepsOrigins (n'.store c v ack).1 := by
  have hstored : n.KeepsOrigins (n'.stored c.element v) := by
    refine tells (tells ?_ (tells_save _ _ _)) (tells_emit _ _)
    exact h.modify fun _ => rfl
  rw [store_eq]
  dsimp only
  split
  · exact hstored.tells (tells_sendStatus _ _ _ _ _ _)
  · exact hstored

theorem withParams {α : Type} {p : Except (List Violation) α} {act : α → Node × Outcome}
    (hact : ∀ a, n.KeepsOrigins (act a).1) : n.KeepsOrigins (n'.withParams p act).1 := by
  unfold Node.withParams
  split
  · exact hact _
  · exact h

theorem receive {message : Message} (hd : message.isDelta = false) :
    n.KeepsOrigins (n'.receive c message).1 := by
  rw [Node.receive]
  split
  · exact h
  · unfold process
    split
    · exact h.tells (tells_sendStatus n' _ _ _ _ _)
    · exact h.withParams fun _ => h.onSet
    · exact h.withParams fun _ => h.onSet
    · exact h.withParams fun _ => h.onSet
    · exact h.withParams fun _ => h.store
    · exact h.withParams fun _ => h.store
    · cases hd
    · exact h.withParams fun _ => h.onMove

/-! ## Calls -/

theorem storeScene (e : UInt8) (slot : Nat) : n.KeepsOrigins (n'.storeScene e slot).1 := by
  rcases storeScene_cases n' e slot with ⟨heq, -⟩ | ⟨models, heq⟩
  · rwa [heq]
  · have hstored (n₁ : Node) (m : Model) (hk : n.KeepsOrigins n₁) :
        n.KeepsOrigins (n₁.storeIn e slot m) := hk.modify fun _ => rfl
    rw [heq]
    exact (h.foldl hstored _).foldl (fun _ _ hk => hk.tells (tells_save _ e _)) _

theorem recallScene (e : UInt8) (slot transition : Nat) :
    n.KeepsOrigins (n'.recallScene e slot transition).1 := by
  rcases recallScene_cases n' e slot transition with ⟨heq, -⟩ | ⟨requests, -, heq⟩
  · rwa [heq]
  · rw [heq]
    exact h.foldl (fun _ _ hk => hk.carryOut follows) _

theorem setLightDefault (e : UInt8) (l : Lightness) :
    n.KeepsOrigins (n'.setLightDefault e l).1 := by
  unfold Node.setLightDefault
  split
  · have hset := h.modify (e := e) (m := .lightness)
      (f := fun i => { i with light := { i.light with default := l } }) fun _ => rfl
    exact (hset.tells (tells_save _ e _)).tells (tells_emit _ _)
  · exact h.tells (tells_emit n' _)

theorem setLightRange (e : UInt8) (lo hi : Lightness) :
    n.KeepsOrigins (n'.setLightRange e lo hi).1 := by
  have hlight (light : LightMemory) : n.KeepsOrigins (n'.retuned e light) :=
    h.modify fun _ => rfl
  rcases setLightRange_cases n' e lo hi with
    ⟨status, -, heq⟩ | ⟨-, light, -, -, -, heq | ⟨l, heq⟩⟩
  · rw [heq]
    exact h.tells (tells_emit n' _)
  · rw [heq]
    exact ((hlight light).tells (tells_save _ e _)).tells (tells_emit _ _)
  · rw [heq]
    exact (hlight light).carryOut follows

theorem handle {x : Call} (hreceive : ∀ c message, x = .receive c message → message.isDelta = false)
    (hreset : x ≠ .reset) (hrestore : ∀ s, x ≠ .restore s) : n.KeepsOrigins (n'.handle x) := by
  cases x with
  | receive c message => exact h.receive (hreceive c message rfl)
  | request r => exact h.carryOut follows
  | query e m => exact h.tells (tells_emit n' _)
  | publish e m => exact h.tells (tells_publish n' e m)
  | publishPeriodically e m =>
    rw [Node.handle, publishPeriodically_fst]
    exact h.tells (tells_publish n' e m)
  | sendStatus e m dst appKey unicast => exact h.tells (tells_sendStatus n' e m _ _ _)
  | storeScene e slot => exact h.storeScene e slot
  | recallScene e slot transition => exact h.recallScene e slot transition
  | powerUp => exact h.foldl (fun _ _ hk => follows _ _ _ _ hk) _
  | setLightDefault e l => exact h.setLightDefault e l
  | setLightRange e lo hi => exact h.setLightRange e lo hi
  | reset => exact absurd rfl hreset
  | restore s => exact absurd rfl (hrestore s)
  | listen m name => exact h
  | keepSaved e m => exact h.modify fun _ => rfl
  | bind link rule => exact h
  | bindLightnessToLevel lightness level => exact h
  | bindLightnessToOnOff lightness onOff => exact h
  | bindOnOffToOnPowerUp power onOff => exact h
  | bindLightnessToOnPowerUp power lightness => exact h

end KeepsOrigins

theorem model_deltaOrigin (hn : n.Typed) (h : n.Originated) (hi : n.get? e m = some i)
    (src : UInt16) (tid : UInt8) : (deltaOrigin i src tid).model = m := by
  have hpresent : i.present.model = m := (hn e m i hi).present
  rw [deltaOrigin]
  split
  · cases hv : i.deltaOrigin with
    | none => exact hpresent
    | some v => exact h e m i hi v hv
  · exact hpresent

theorem Originated.onDelta {p : Params Int32} (h : n.Originated) (hn : n.Typed)
    (hi : n.get? c.element .level = some i) : (n.onDelta c i p ack).1.Originated := by
  have hset := h.modify (e := c.element) (m := .level)
    (f := fun j => { j with deltaOrigin := some (deltaOrigin i c.src p.tid) }) fun j _ v hv => by
      obtain rfl := Option.some.inj hv
      exact model_deltaOrigin hn h hi c.src p.tid
  exact hset.keeps (KeepsOrigins.refl _).remember.startForClient.answerUnlessDelayed

theorem Originated.receive (h : n.Originated) (hn : n.Typed) (c : Envelope) (message : Message) :
    (n.receive c message).1.Originated := by
  cases message with
  | levelDelta bytes ack =>
    simp only [Node.receive, process, withParams]
    split
    · exact h
    next i hi =>
      split
      · exact h.onDelta hn hi
      · exact h
  | get | set | levelMove => exact h.keeps ((KeepsOrigins.refl n).receive rfl)

/-! ## Calls and steps -/

theorem originated_reset (n : Node) : n.reset.Originated := by
  intro e m i hi v hv
  rw [get?_reset] at hi
  obtain ⟨j, -, rfl⟩ := Option.map_eq_some_iff.mp hi
  cases hv

theorem Originated.loaded (h : n.Originated) (image : Image) : (n.loaded image).Originated := by
  refine modify (n := Node.cancel _ _) h fun i _ v hv => ?_
  cases hv

theorem Originated.handle (h : n.Originated) (hn : n.Typed) (x : Call) :
    (n.handle x).Originated := by
  cases x with
  | receive c message => exact h.receive hn c message
  | reset => exact originated_reset n
  | restore s =>
    rcases restore_cases n s with ⟨-, hs⟩ | ⟨-, -, -, hs⟩
    · rwa [hs]
    · rw [hs]
      exact h.loaded s.image
  | _ => exact h.keeps ((KeepsOrigins.refl n).handle (by simp) (by simp) (by simp))

theorem Originated.step {P : Node → Call → Prop} (h : n.Originated) (hn : n.Sound)
    (hs : Step P n n') : n'.Originated := by
  cases hs with
  | call x _ => exact h.handle hn.typed x
  | @expiry horizon timer ts hp =>
    have hts : ({ n with timers := ts } : Node).Originated := h
    obtain ⟨e, m, rfl | rfl⟩ := timer_cases timer
    · exact hts.keeps (KeepsOrigins.refl _).onTransition
    · refine hts.modify fun i _ v hv => ?_
      cases hv
  | passage _ => exact h

theorem Originated.steps {P : Node → Call → Prop} (h : n.Originated) (hn : n.Sound)
    (hs : Steps P n n') : n'.Originated := by
  induction hs with
  | refl => exact h
  | tail hs hstep ih => exact ih.step (hn.steps hs) hstep

theorem holdsOfNew_deltaOrigin : HoldsOfNew fun _ i => i.deltaOrigin = none where
  new _ _ _ := rfl
  value _ _ h := h
  saved _ _ h := h

theorem IsBuilt.originated (h : n.IsBuilt) : n.Originated := by
  intro e m i hi v hv
  rw [h.holds holdsOfNew_deltaOrigin hi] at hv
  cases hv

theorem IsReached.originated (h : n.IsReached) : n.Originated := by
  obtain ⟨n₀, ops, hn₀, rfl⟩ := h
  have hs : Steps (fun _ _ => True) n₀ (n₀.run ops) :=
    run_steps (admits_of_forall (fun _ _ _ => trivial) n₀)
  exact hn₀.originated.steps hn₀.sound hs

end MeshNode.Node
