import MeshNode.Proofs.Bindings.NestingDepth

/-! # Jobs

What an operation does is taken apart into jobs. A job does something at once and leaves further
jobs, which are done one after the other before anything that was left before. Doing a job and all
that it leaves comes to the same as the function that it stands for.
-/

namespace MeshNode

/-- Something that a node does in the course of an operation. -/
inductive Job where
  | announce (element : UInt8) (model : Model)
  | publish (element : UInt8) (model : Model)
  | save (element : UInt8) (model : Model)
  | sendStatus (element : UInt8) (model : Model) (reply : PendingReply)
  | reportLight (element : UInt8) (status : Status)
  | reportStored (element : UInt8) (v : Value)
  | display (element : UInt8) (model : Model) (v : Value) (source : Source)
  | resolveEdge (element : UInt8) (model : Model)
  | ascend
  | follow (element : UInt8) (model : Model) (v : Value)
  | obey (v : Value) (b : Binding Rule)
  | carryOut (r : Request)
  | start (element : UInt8) (model : Model) (v : Value) (transition delay : Nat) (source : Source)
      (motion : Option Motion)
  | program (element : UInt8) (model : Model) (target : Value) (transition delay : Nat)
      (source : Source)
  | embark (element : UInt8) (model : Model) (target : Value) (transition : Nat) (source : Source)
      (stepped : Bool)
  | settle (element : UInt8) (model : Model) (target : Value) (source : Source)
  | halt (element : UInt8) (model : Model)
  | answer (c : Envelope) (model : Model)
  | expire (timer : Timer)
  | call (x : Call)

/-- A node in the course of an operation, and the jobs that are left, in the order in which they are
done. -/
structure Moment where
  node : Node
  agenda : List Job

def Job.passing (e : UInt8) (m : Model) (v : Value) (source : Source) : List Job :=
  if source.triggersBindings then [.follow e m v] else []

namespace Node

variable {n : Node} {e : UInt8} {m : Model} {v : Value} {t d : Nat} {s : Source}
  {motion : Option Motion} {j : Job}

/-- The node once a job is done, with all that it leaves. -/
def work (n : Node) : Job → Node
  | .announce e m => n.announce e m
  | .publish e m => n.publish e m
  | .save e m => n.save e m
  | .sendStatus e m reply => n.sendStatus e m reply.dst reply.appKey reply.unicast
  | .reportLight e status => (n.reportLightSetting e status).1
  | .reportStored e v => n.emit (.stateUpdate .success e v.model .client v none .idle)
  | .display e m v s => n.display e m v s
  | .resolveEdge e m => n.modify e m fun i => { i with edgeResolved := true }
  | .ascend => { n with depth := n.depth - 1 }
  | .follow e m v => n.follow e m v
  | .obey v b => obey follow v n b
  | .carryOut r => n.carryOut follow r
  | .start e m v t d s motion => n.start follow e m v t d s motion
  | .program e m v t d s => n.program follow e m v t d s
  | .embark e m v t s stepped => n.embark follow e m v t s stepped
  | .settle e m v s => n.settle follow e m v s
  | .halt e m => n.halt e m
  | .answer c m => n.answerUnlessDelayed c m
  | .expire timer => n.onTimer timer
  | .call x => n.handle x

/-! ## What a job does at once, and what it leaves -/

def beginFollow (n : Node) (e : UInt8) (m : Model) (v : Value) : Moment :=
  match m.boundState? with
  | none => ⟨n, []⟩
  | some state =>
    let bindings := n.bindings.matching e state
    if bindings = [] ∨ n.config.maxBindDepth.toNat ≤ n.depth then ⟨n, []⟩
    else ⟨{ n with depth := n.depth + 1 }, bindings.map (.obey v) ++ [.ascend]⟩

def beginCarryOut (n : Node) (r : Request) : Moment :=
  match n.check r.element r.model r.value with
  | .success =>
    ⟨n, [.start r.element r.model r.value r.transition r.delay r.source none]⟩
  | status => ⟨n.emit (.stateUpdate status r.element r.model r.source r.value none .idle), []⟩

def beginStart (n : Node) (e : UInt8) (m : Model) (v : Value) (transition delay : Nat)
    (source : Source) (motion : Option Motion) : Moment :=
  match n.get? e m with
  | none => ⟨n, []⟩
  | some i =>
    let target := confine i v
    let transition := if m.isTransitional then transition else 0
    let delay := if m.isTransitional then delay else 0
    let stepping :=
      if motion.isSome then Stepping.none
      else .plan i.present target transition n.config.stepInterval.toNat
    let n := n.modify e m fun i =>
      { i with motion := motion, stepping := stepping, edgeResolved := false }
    ⟨n.note (.requested ⟨e, m, target, transition, delay, source⟩ motion),
      [.program e m target transition delay source]⟩

def beginProgram (n : Node) (e : UInt8) (m : Model) (target : Value) (transition delay : Nat)
    (source : Source) : Moment :=
  match n.get? e m with
  | none => ⟨n, []⟩
  | some i =>
    let n := n.modify e m fun i =>
      { i with remaining := transition, delay := delay, source := source, target := target }
    if 0 < delay then
      ⟨n.arm (transitionTimer e m) (TransitionTime.delayMs delay), [.announce e m]⟩
    else if 0 < transition then
      ⟨n, [.embark e m target transition source i.stepping.isActive]⟩
    else ⟨n.cancel (transitionTimer e m), [.settle e m target source]⟩

def beginEmbark (n : Node) (e : UInt8) (m : Model) (target : Value) (transition : Nat)
    (source : Source) (stepped : Bool) : Moment :=
  let first := if stepped then n.config.stepInterval.toNat else transition
  ⟨n.arm (transitionTimer e m) first,
    (if target.isImmediate then
      .display e m target source ::
        if source.triggersBindings then [.follow e m target, .resolveEdge e m] else []
    else []) ++ [.announce e m]⟩

def beginSettle (n : Node) (e : UInt8) (m : Model) (target : Value) (source : Source) :
    Moment :=
  match n.get? e m with
  | none => ⟨n, []⟩
  | some i =>
    ⟨n.modify e m fun i =>
      { i with
        remaining := 0
        delay := 0
        stepping := .none
        motion := none
        target := target
        edgeResolved := false },
      .display e m target source ::
        (if i.edgeResolved then [] else Job.passing e m target source) ++
        [.publish e m, .save e m, .announce e m]⟩

def beginHalt (n : Node) (e : UInt8) (m : Model) : Moment :=
  let n := n.cancel (transitionTimer e m)
  match n.get? e m with
  | none => ⟨n, []⟩
  | some i =>
    if i.isIdle then ⟨n.modify e m fun i => { i with motion := none }, []⟩
    else ⟨n.modify e m fun i => { i with edgeResolved := true }, [.settle e m i.present i.source]⟩

def beginAnswer (n : Node) (c : Envelope) (m : Model) : Moment :=
  match n.get? c.element m with
  | none => ⟨n, []⟩
  | some i =>
    if 0 < i.delay then ⟨n, []⟩
    else
      match i.pendingReply with
      | some reply =>
        ⟨n.modify c.element m fun i => { i with pendingReply := none },
          [.sendStatus c.element m reply]⟩
      | none => ⟨n, []⟩

/-! ### Timers that fire -/

def beginEndDelay (n : Node) (e : UInt8) (m : Model) (i : Instance) : Moment :=
  ⟨n.modify e m fun i => { i with delay := 0, pendingReply := none },
    .program e m i.target i.remaining 0 i.source ::
      (i.pendingReply.map (.sendStatus e m)).toList⟩

def beginMoveOn (n : Node) (e : UInt8) (m : Model) (i : Instance) (k : Motion) :
    Moment :=
  let next := i.present.shift k.step
  ⟨n,
    if next = i.target then [.settle e m i.target i.source]
    else .display e m next i.source :: Job.passing e m next i.source ++
      [.program e m i.target k.interval 0 i.source, .publish e m]⟩

def beginStepOn (n : Node) (e : UInt8) (m : Model) (i : Instance) : Moment :=
  let remaining := i.remaining - n.config.stepInterval.toNat
  let interim := i.present.shift i.stepping.increment
  ⟨n.modify e m fun i => { i with stepping := i.stepping.next },
    .display e m interim i.source :: Job.passing e m interim i.source ++
      if remaining = 0 then [.settle e m i.target i.source]
      else [.program e m i.target remaining 0 i.source, .publish e m]⟩

def beginOnTransition (n : Node) (e : UInt8) (m : Model) : Moment :=
  match n.get? e m with
  | none => ⟨n, []⟩
  | some i =>
    if 0 < i.delay then n.beginEndDelay e m i
    else if 0 < i.remaining then
      match i.motion with
      | some motion => n.beginMoveOn e m i motion
      | none =>
        if i.stepping.isActive then n.beginStepOn e m i
        else ⟨n, [.settle e m i.target i.source]⟩
    else ⟨n, []⟩

def beginExpire (n : Node) (timer : Timer) : Moment :=
  match timer.purpose with
  | .transition => n.beginOnTransition timer.element timer.model
  | .transaction =>
    ⟨n.modify timer.element timer.model fun i =>
      { i with transaction := i.transaction.forget, deltaOrigin := none }, []⟩

/-! ### Messages -/

def beginSet (n : Node) (c : Envelope) (i : Instance) (p : Params Value) (ack : Bool) :
    Moment :=
  match i.transaction.verdict c.src p.tid with
  | .reject => ⟨n, []⟩
  | .accept =>
    let (transition, delay) := n.timing c.element p.timing
    ⟨n.remember c p.value.model p.tid ack,
      [.start c.element p.value.model p.value transition delay .client none,
        .answer c p.value.model]⟩

def beginDelta (n : Node) (c : Envelope) (i : Instance) (p : Params Int32) (ack : Bool) :
    Moment :=
  let (transition, delay) := n.timing c.element p.timing
  let origin := deltaOrigin i c.src p.tid
  let v := origin.shift p.value.toInt
  ⟨(n.modify c.element .level fun i => { i with deltaOrigin := some origin }).remember
      c .level p.tid ack,
    [.start c.element v.model v transition delay .client none, .answer c .level]⟩

def beginMove (n : Node) (c : Envelope) (i : Instance) (p : Params Level) (ack : Bool) :
    Moment :=
  match i.transaction.verdict c.src p.tid with
  | .reject => ⟨n, []⟩
  | .accept =>
    let (transition, delay) := n.timing c.element p.timing
    ⟨n.remember c .level p.tid ack,
      (if p.value = 0 then [.halt c.element .level]
      else if 0 < transition then
        let motion := Motion.ofSpeed p.value.toInt transition n.config.moveInterval.toNat
        let bound : Level := if p.value < 0 then -32768 else 32767
        [.start c.element .level (.level bound) motion.interval delay .client (some motion)]
      else []) ++ [.answer c .level]⟩

def beginStore (n : Node) (c : Envelope) (v : Value) (ack : Bool) : Moment :=
  ⟨n.modify c.element v.model fun i => { i with target := v, source := .client },
    [.display c.element v.model v .client, .save c.element v.model, .reportStored c.element v] ++
      if ack then [.sendStatus c.element v.model c.reply] else []⟩

def beginWith {α : Type} (n : Node) (p : Except (List Violation) α)
    (act : α → Moment) : Moment :=
  match p with
  | .ok a => act a
  | .error _ => ⟨n, []⟩

def beginProcess (n : Node) (c : Envelope) (i : Instance) : Message → Moment
  | .get m => ⟨n, [.sendStatus c.element m c.reply]⟩
  | .set .onOff bytes ack =>
    n.beginWith (setParams 1 .onOff .onOff bytes) fun p => n.beginSet c i p ack
  | .set .level bytes ack =>
    n.beginWith (setParams 2 .level .level bytes) fun p => n.beginSet c i p ack
  | .set .lightness bytes ack =>
    n.beginWith (setParams 2 .lightness .lightness bytes) fun p => n.beginSet c i p ack
  | .set .powerOnOff bytes ack =>
    n.beginWith (Params.onPowerUp bytes) fun b => n.beginStore c (.onPowerUp b) ack
  | .set .defaultTransition bytes ack =>
    n.beginWith (Params.defaultTransition bytes) fun t => n.beginStore c (.defaultTransition t) ack
  | .levelDelta bytes ack =>
    n.beginWith (Params.transactional 4 .delta bytes) fun p => n.beginDelta c i p ack
  | .levelMove bytes ack =>
    n.beginWith (Params.movement bytes) fun p => n.beginMove c i p ack

def beginReceive (n : Node) (c : Envelope) (message : Message) : Moment :=
  match n.get? c.element message.model with
  | none => ⟨n, []⟩
  | some i => n.beginProcess c i message

/-! ### Calls -/

def beginStoreScene (n : Node) (e : UInt8) (slot : Nat) : Moment :=
  match n.elements[e.toNat]? with
  | none => ⟨n, []⟩
  | some el =>
    if n.config.sceneSlots.toNat ≤ slot then ⟨n, []⟩
    else
      let models := (el.instances.filter fun (_, i) => slot < i.scenes.length).map Prod.fst
      ⟨models.foldl (fun n m => n.storeIn e slot m) n, models.map (.save e)⟩

def beginRecallScene (n : Node) (e : UInt8) (slot transition : Nat) : Moment :=
  match n.elements[e.toNat]? with
  | none => ⟨n, []⟩
  | some el =>
    if n.config.sceneSlots.toNat ≤ slot then ⟨n, []⟩
    else
      let requests := el.instances.filterMap fun (m, i) =>
        (i.scene? slot).map fun v => Request.scene e m v transition
      ⟨n, requests.map .carryOut⟩

def beginSetLightDefault (n : Node) (e : UInt8) (default : Lightness) : Moment :=
  if n.hosts e .lightness then
    ⟨n.modify e .lightness fun i => { i with light := { i.light with default } },
      [.save e .lightness, .reportLight e .success]⟩
  else ⟨n, [.reportLight e .invalidElement]⟩

def beginSetLightRange (n : Node) (e : UInt8) (lo hi : Lightness) : Moment :=
  match n.get? e .lightness with
  | none => ⟨n, [.reportLight e .invalidElement]⟩
  | some i =>
    if LightMemory.isRange lo hi then
      let light := { i.light with rangeMin := lo, rangeMax := hi }
      let current : Lightness := match i.settled with
        | .lightness l => l
        | _ => 0
      ⟨n.retuned e light,
        if light.clamp current = current then [.save e .lightness, .reportLight e .success]
        else [.carryOut (.application e (.lightness (light.clamp current)) 0 0)]⟩
    else ⟨n, [.reportLight e .invalidParam]⟩

def beginCall (n : Node) : Call → Moment
  | .receive c message => n.beginReceive c message
  | .request r => ⟨n, [.carryOut r]⟩
  | .query e m => ⟨(n.query e m).1, []⟩
  | .publish e m => ⟨n, [.publish e m]⟩
  | .publishPeriodically e m => ⟨n, if n.hosts e m then [.publish e m] else []⟩
  | .sendStatus e m dst appKey unicast => ⟨n, [.sendStatus e m ⟨dst, appKey, unicast⟩]⟩
  | .storeScene e slot => n.beginStoreScene e slot
  | .recallScene e slot transition => n.beginRecallScene e slot transition
  | .powerUp =>
    ⟨n, (n.instances.filter fun (_, m, _) => m = .powerOnOff).map fun (e, m, i) =>
      .follow e m i.present⟩
  | .setLightDefault e default => n.beginSetLightDefault e default
  | .setLightRange e lo hi => n.beginSetLightRange e lo hi
  | x => ⟨n.handle x, []⟩

def begin (n : Node) : Job → Moment
  | .follow e m v => n.beginFollow e m v
  | .obey v b =>
    ⟨n.note (.followed b.link v n.depth), (b.rule n.elements b.link.target v).map .carryOut⟩
  | .carryOut r => n.beginCarryOut r
  | .start e m v t d s motion => n.beginStart e m v t d s motion
  | .program e m v t d s => n.beginProgram e m v t d s
  | .embark e m v t s stepped => n.beginEmbark e m v t s stepped
  | .settle e m v s => n.beginSettle e m v s
  | .halt e m => n.beginHalt e m
  | .answer c m => n.beginAnswer c m
  | .expire timer => n.beginExpire timer
  | .call x => n.beginCall x
  | j => ⟨n.work j, []⟩

/-! ## A job is what it does at once and what it leaves -/

/-- The node once what was done at once is followed by the jobs that are left. -/
def finish (c : Moment) : Node := c.agenda.foldl work c.node

theorem foldl_passing (n : Node) (e : UInt8) (m : Model) (v : Value) (s : Source) :
    (Job.passing e m v s).foldl work n = n.passOn follow e m v s := by
  unfold Job.passing passOn
  split <;> rfl

theorem finish_carryOut (n : Node) (r : Request) :
    finish (n.beginCarryOut r) = n.carryOut follow r := by
  unfold beginCarryOut carryOut
  cases n.check r.element r.model r.value <;> rfl

theorem finish_start (n : Node) :
    finish (n.beginStart e m v t d s motion) = n.start follow e m v t d s motion := by
  unfold beginStart start
  cases n.get? e m <;> rfl

theorem finish_program (n : Node) :
    finish (n.beginProgram e m v t d s) = n.program follow e m v t d s := by
  unfold beginProgram program
  cases n.get? e m with
  | none => rfl
  | some i =>
    dsimp only
    split
    · rfl
    · split <;> rfl

theorem finish_embark (n : Node) {stepped : Bool} :
    finish (n.beginEmbark e m v t s stepped) = n.embark follow e m v t s stepped := by
  unfold beginEmbark embark
  dsimp only
  generalize (if stepped then n.config.stepInterval.toNat else t) = first
  split
  · split <;> rfl
  · rfl

theorem finish_settle (n : Node) : finish (n.beginSettle e m v s) = n.settle follow e m v s := by
  unfold beginSettle settle
  cases n.get? e m with
  | none => rfl
  | some i =>
    simp only [finish, List.cons_append, List.foldl_cons, List.foldl_append]
    split
    · rfl
    · rw [foldl_passing]
      rfl

theorem finish_halt (n : Node) : finish (n.beginHalt e m) = n.halt e m := by
  unfold beginHalt halt
  dsimp only
  cases (n.cancel (transitionTimer e m)).get? e m with
  | none => rfl
  | some i =>
    dsimp only
    split <;> rfl

theorem finish_answer (n : Node) (c : Envelope) :
    finish (n.beginAnswer c m) = n.answerUnlessDelayed c m := by
  unfold beginAnswer answerUnlessDelayed
  cases n.get? c.element m with
  | none => rfl
  | some i =>
    dsimp only
    split
    · rfl
    · cases i.pendingReply <;> rfl

/-! ### Timers that fire -/

theorem finish_endDelay (n : Node) (i : Instance) :
    finish (n.beginEndDelay e m i) = n.endDelay e m i := by
  unfold beginEndDelay endDelay
  cases i.pendingReply <;> rfl

theorem finish_moveOn (n : Node) (i : Instance) (k : Motion) :
    finish (n.beginMoveOn e m i k) = n.moveOn e m i k := by
  unfold beginMoveOn moveOn
  dsimp only
  split
  · rfl
  · simp only [finish, List.foldl_cons, List.foldl_append, foldl_passing]
    rfl

theorem finish_stepOn (n : Node) (i : Instance) :
    finish (n.beginStepOn e m i) = n.stepOn e m i := by
  unfold beginStepOn stepOn
  simp only [finish, List.foldl_cons, List.foldl_append, foldl_passing]
  split <;> rfl

theorem finish_onTransition (n : Node) :
    finish (n.beginOnTransition e m) = n.onTransition e m := by
  unfold beginOnTransition onTransition
  cases n.get? e m with
  | none => rfl
  | some i =>
    dsimp only
    split
    · exact finish_endDelay n i
    · split
      · cases i.motion with
        | some k => exact finish_moveOn n i k
        | none =>
          dsimp only
          split
          · exact finish_stepOn n i
          · rfl
      · rfl

theorem finish_expire (n : Node) (timer : Timer) :
    finish (n.beginExpire timer) = n.onTimer timer := by
  obtain ⟨e, m, purpose⟩ := timer
  cases purpose with
  | transition => exact finish_onTransition n
  | transaction => rfl

/-! ### Messages -/

theorem finish_set (n : Node) (c : Envelope) (i : Instance) (p : Params Value) (ack : Bool) :
    finish (n.beginSet c i p ack) = (n.onSet c i p ack).1 := by
  unfold beginSet onSet
  cases i.transaction.verdict c.src p.tid <;> rfl

theorem finish_move (n : Node) (c : Envelope) (i : Instance) (p : Params Level) (ack : Bool) :
    finish (n.beginMove c i p ack) = (n.onMove c i p ack).1 := by
  unfold beginMove onMove
  cases i.transaction.verdict c.src p.tid with
  | reject => rfl
  | accept =>
    dsimp only
    split
    · rfl
    · split <;> rfl

theorem modify_modify (n : Node) (f g : Instance → Instance) :
    (n.modify e m f).modify e m g = n.modify e m (g ∘ f) := by
  have hel : (fun el : Element => el.set m ((el.get m).map g)) ∘
      (fun el : Element => el.set m ((el.get m).map f)) =
      fun el => el.set m ((el.get m).map (g ∘ f)) := by
    funext el
    cases m <;> exact congrArg _ (Option.map_map ..)
  simp only [modify, List.modify_modify_eq, hel]

theorem finish_store (n : Node) (c : Envelope) (v : Value) (ack : Bool) :
    finish (n.beginStore c v ack) = (n.store c v ack).1 := by
  have hshown : (n.modify c.element v.model fun i =>
      { i with target := v, source := .client }).display c.element v.model v .client =
      n.modify c.element v.model fun i =>
        { i.display v .client n.now with target := v, source := .client } :=
    modify_modify n _ _
  cases ack
  all_goals
    simp only [beginStore, finish, List.cons_append, List.foldl_cons, work, hshown]
    rfl

theorem finish_with {α : Type} (n : Node) (p : Except (List Violation) α)
    {act : α → Moment} {act' : α → Node × Outcome}
    (h : ∀ a, finish (act a) = (act' a).1) :
    finish (n.beginWith p act) = (n.withParams p act').1 := by
  cases p with
  | ok a => exact h a
  | error vs => rfl

theorem finish_process (n : Node) (c : Envelope) (i : Instance) (message : Message) :
    finish (n.beginProcess c i message) = (n.process c i message).1 := by
  unfold beginProcess process
  split
  · rfl
  · exact finish_with n _ fun p => finish_set n c i p _
  · exact finish_with n _ fun p => finish_set n c i p _
  · exact finish_with n _ fun p => finish_set n c i p _
  · exact finish_with n _ fun b => finish_store n c _ _
  · exact finish_with n _ fun t => finish_store n c _ _
  · exact finish_with n _ fun _ => rfl
  · exact finish_with n _ fun p => finish_move n c i p _

theorem finish_receive (n : Node) (c : Envelope) (message : Message) :
    finish (n.beginReceive c message) = (n.receive c message).1 := by
  unfold beginReceive receive
  cases n.get? c.element message.model with
  | none => rfl
  | some i => exact finish_process n c i message

/-! ### Calls -/

theorem finish_map {α : Type} (n : Node) (f : α → Job) (as : List α) :
    finish ⟨n, as.map f⟩ = as.foldl (fun n a => n.work (f a)) n :=
  List.foldl_map

theorem finish_storeScene (n : Node) (slot : Nat) :
    finish (n.beginStoreScene e slot) = (n.storeScene e slot).1 := by
  unfold beginStoreScene storeScene
  cases n.elements[e.toNat]? with
  | none => rfl
  | some el =>
    dsimp only
    split
    · rfl
    · rw [finish_map]
      split
      next h => rw [h]; rfl
      next => rfl

theorem finish_recallScene (n : Node) (slot transition : Nat) :
    finish (n.beginRecallScene e slot transition) = (n.recallScene e slot transition).1 := by
  unfold beginRecallScene recallScene
  cases n.elements[e.toNat]? with
  | none => rfl
  | some el =>
    dsimp only
    split
    · rfl
    · rw [finish_map]
      split
      next h => rw [h]; rfl
      next => rfl

theorem finish_setLightDefault (n : Node) (l : Lightness) :
    finish (n.beginSetLightDefault e l) = (n.setLightDefault e l).1 := by
  unfold beginSetLightDefault setLightDefault
  split <;> rfl

theorem finish_setLightRange (n : Node) (lo hi : Lightness) :
    finish (n.beginSetLightRange e lo hi) = (n.setLightRange e lo hi).1 := by
  unfold beginSetLightRange setLightRange
  cases n.get? e .lightness with
  | none => rfl
  | some i =>
    dsimp only
    split
    · cases i.settled
      all_goals
        dsimp only
        split <;> rfl
    · rfl

theorem finish_call (n : Node) (x : Call) : finish (n.beginCall x) = n.handle x := by
  cases x with
  | receive c message => exact finish_receive n c message
  | publishPeriodically e m =>
    simp only [beginCall, handle, publishPeriodically]
    split <;> rfl
  | storeScene e slot => exact finish_storeScene n slot
  | recallScene e slot transition => exact finish_recallScene n slot transition
  | powerUp => exact finish_map n _ _
  | setLightDefault e l => exact finish_setLightDefault n l
  | setLightRange e lo hi => exact finish_setLightRange n lo hi
  | _ => rfl

/-! ### Bindings -/

/-- What follows a change in turn does so like the change itself, one level deeper. -/
theorem follow_eq_descend (n : Node) : n.follow = descend follow n := by
  let depth := n.config.maxBindDepth.toNat
  have hfollow : followBindings depth n = descend^[depth + 1] follow n :=
    iterate_descend follow (by omega) (by omega)
  rw [Function.iterate_succ_apply'] at hfollow
  refine hfollow.trans (descend_congr deepens_follow fun hlt n' hd hc => ?_).symm
  have hbelow : followBindings depth n' = descend^[depth] follow n' := by
    apply iterate_descend
    · rw [hd, hc]
      omega
    · rw [hc]
      omega
  rw [← hbelow]
  exact congrArg (fun config : Config => followBindings config.maxBindDepth.toNat n') hc

theorem finish_follow (n : Node) : finish (n.beginFollow e m v) = n.follow e m v := by
  rw [follow_eq_descend]
  unfold beginFollow descend
  cases m.boundState? with
  | none => rfl
  | some state =>
    dsimp only
    split
    · rfl
    · rw [finish, List.foldl_append, List.foldl_map]
      rfl

/-- Doing a job is doing what it does at once, and then the jobs that it leaves. -/
theorem work_eq (n : Node) (j : Job) : n.work j = finish (n.begin j) := by
  cases j with
  | follow e m v => exact (finish_follow n).symm
  | obey v b => exact (finish_map _ .carryOut _).symm
  | carryOut r => exact (finish_carryOut n r).symm
  | start e m v t d s motion => exact (finish_start n).symm
  | program e m v t d s => exact (finish_program n).symm
  | embark e m v t s stepped => exact (finish_embark n).symm
  | settle e m v s => exact (finish_settle n).symm
  | halt e m => exact (finish_halt n).symm
  | answer c m => exact (finish_answer n c).symm
  | expire timer => exact (finish_expire n timer).symm
  | call x => exact (finish_call n x).symm
  | _ => rfl

end Node

end MeshNode
