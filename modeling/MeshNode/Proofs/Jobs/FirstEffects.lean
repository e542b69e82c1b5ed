import MeshNode.Proofs.Jobs.Agenda

/-! # What a job does at once

At once a job shows a value, tells the application of an event, goes down a level of bindings or
comes back, or loads a snapshot. Whatever else it does is seen neither by the application nor in the
present values and their histories.
-/

namespace MeshNode

def Job.event? (n : Node) : Job → Option Event
  | .announce e m => (n.get? e m).map fun i =>
    .stateUpdate .success e m i.source i.present (if i.isIdle then none else some i.target) i.phase
  | .reportLight e status =>
    some (.stateUpdate status e .lightness .application
      ((n.present? e .lightness).getD (.initial .lightness)) none .idle)
  | .reportStored e v => some (.stateUpdate .success e v.model .client v none .idle)
  | .carryOut r =>
    match n.check r.element r.model r.value with
    | .success => none
    | status => some (.stateUpdate status r.element r.model r.source r.value none .idle)
  | .call (.query e m) =>
    some (.currentState (if (n.present? e m).isSome then .success else .invalidElement) e m
      (n.present? e m))
  | _ => none

namespace Node

variable {n n' n'' : Node} {e : UInt8} {m : Model} {f : Instance → Instance} {v : Value}
  {t d : Nat} {s : Source} {j : Job} {x : Effect}

/-- The present value of an instance, and its history. -/
def shown? (n : Node) (e : UInt8) (m : Model) : Option (Value × History) :=
  (n.get? e m).map fun i => (i.present, i.history)

/-- The last lightness that was not zero, as an instance remembers it. -/
def last? (n : Node) (e : UInt8) (m : Model) : Option Lightness :=
  (n.get? e m).map fun i => i.light.last

def Mute (n n' : Node) : Prop := ∃ xs, n'.log = xs ++ n.log ∧ ∀ l ev, Effect.heard l ev ∉ xs

theorem Mute.of_log (h : n'.log = n.log) : n.Mute n' := ⟨[], h, by simp⟩

theorem Mute.trans (h : n.Mute n') (h' : n'.Mute n'') : n.Mute n'' := by
  obtain ⟨xs, hlog, hxs⟩ := h
  obtain ⟨ys, hlog', hys⟩ := h'
  refine ⟨ys ++ xs, by rw [hlog', hlog, List.append_assoc], fun l ev hmem => ?_⟩
  exact (List.mem_append.mp hmem).elim (hys l ev) (hxs l ev)

/-- From the first node to the second nothing can be seen, and no time passes. -/
structure Unseen (n n' : Node) : Prop where
  config : n'.config = n.config
  depth : n'.depth = n.depth
  now : n'.now = n.now
  mute : n.Mute n'
  shown : ∀ e m, n'.shown? e m = n.shown? e m
  last : ∀ e m, n'.last? e m = n.last? e m

inductive Outset (n : Node) : Job → Moment → Prop where
  | event {j : Job} {ev : Event} (h : j.event? n = some ev) : Outset n j ⟨n.emit ev, []⟩
  | display (e : UInt8) (m : Model) (v : Value) (s : Source) :
    Outset n (.display e m v s) ⟨n.display e m v s, []⟩
  | follow (e : UInt8) (m : Model) (v : Value) (depth : Nat) (js : List Job) :
    Outset n (.follow e m v) ⟨{ n with depth }, js⟩
  | ascend : Outset n .ascend ⟨{ n with depth := n.depth - 1 }, []⟩
  | load (s : Snapshot) : Outset n (.call (.restore s)) ⟨n.loaded s.image, []⟩
  | unseen {j : Job} {c : Moment} (hevent : j.event? n = none) (h : n.Unseen c.node) : Outset n j c

/-! ## Unseen changes -/

namespace Unseen

theorem refl (n : Node) : n.Unseen n :=
  ⟨rfl, rfl, rfl, .of_log rfl, fun _ _ => rfl, fun _ _ => rfl⟩

theorem trans (h : n.Unseen n') (h' : n'.Unseen n'') : n.Unseen n'' where
  config := h'.config.trans h.config
  depth := h'.depth.trans h.depth
  now := h'.now.trans h.now
  mute := h.mute.trans h'.mute
  shown e m := (h'.shown e m).trans (h.shown e m)
  last e m := (h'.last e m).trans (h.last e m)

/-- Nothing is seen of a change of an instance, as it is, that keeps what it shows and remembers. -/
theorem modify_of_get? (hf : ∀ i, n.get? e m = some i → (f i).present = i.present ∧
      (f i).history = i.history ∧ (f i).light.last = i.light.last) :
    n.Unseen (n.modify e m f) where
  config := rfl
  depth := rfl
  now := rfl
  mute := .of_log rfl
  shown e' m' := by
    by_cases hx : (e', m') = (e, m)
    · obtain ⟨rfl, rfl⟩ := Prod.mk.injEq .. ▸ hx
      rw [shown?, get?_modify_self, Option.map_map]
      exact Option.map_congr fun i hi => Prod.ext (hf i hi).1 (hf i hi).2.1
    · rw [shown?, get?_modify_of_ne hx]
      rfl
  last e' m' := by
    by_cases hx : (e', m') = (e, m)
    · obtain ⟨rfl, rfl⟩ := Prod.mk.injEq .. ▸ hx
      rw [last?, get?_modify_self, Option.map_map]
      exact Option.map_congr fun i hi => (hf i hi).2.2
    · rw [last?, get?_modify_of_ne hx]
      rfl

theorem modify (hf : ∀ i, (f i).present = i.present ∧ (f i).history = i.history ∧
      (f i).light = i.light) : n.Unseen (n.modify e m f) :=
  modify_of_get? fun i _ => ⟨(hf i).1, (hf i).2.1, congrArg LightMemory.last (hf i).2.2⟩

theorem arm {timer : Timer} {after : Nat} (h : n.Unseen n') : n.Unseen (n'.arm timer after) :=
  { h with }

theorem cancel {timer : Timer} (h : n.Unseen n') : n.Unseen (n'.cancel timer) := { h with }

theorem note (h : n.Unseen n') (hx : ∀ l ev, x ≠ .heard l ev) : n.Unseen (n'.note x) where
  config := h.config
  depth := h.depth
  now := h.now
  mute := h.mute.trans ⟨[x], rfl, fun l ev hmem => hx l ev (List.mem_singleton.mp hmem).symm⟩
  shown := h.shown
  last := h.last

theorem remember {c : Envelope} {k : UInt8} {ack : Bool} (h : n.Unseen n') :
    n.Unseen (n'.remember c m k ack) := by
  unfold Node.remember
  exact .arm (h.trans (.modify fun _ => ⟨rfl, rfl, rfl⟩))

theorem handOver (n : Node) (out : Outbound) : n.Unseen (n.handOver out) := by
  unfold Node.handOver
  split
  · exact (refl n).note (by simp)
  · exact refl n

theorem publish (n : Node) (e : UInt8) (m : Model) : n.Unseen (n.publish e m) := by
  unfold Node.publish
  split
  · exact handOver n _
  · exact refl n

theorem sendStatus (n : Node) (e : UInt8) (m : Model) (dst appKey : UInt16) (unicast : Bool) :
    n.Unseen (n.sendStatus e m dst appKey unicast) := by
  unfold Node.sendStatus
  split
  · exact handOver n _
  · exact refl n

theorem save (n : Node) (e : UInt8) (m : Model) : n.Unseen (n.save e m) := by
  unfold Node.save
  split
  · split
    · exact (refl n).note (by simp)
    · exact refl n
  · exact refl n

theorem foldl {α : Type} {g : Node → α → Node} (hg : ∀ n a, Unseen n (g n a)) (as : List α)
    (n : Node) : n.Unseen (as.foldl g n) :=
  List.foldlRecOn as g (refl n) fun n' h a _ => h.trans (hg n' a)

end Unseen

/-! ## Job by job -/

theorem outset_announce (n : Node) (e : UInt8) (m : Model) :
    n.Outset (.announce e m) ⟨n.announce e m, []⟩ := by
  cases hi : n.get? e m with
  | none =>
    have hevent : (Job.announce e m).event? n = none := by rw [Job.event?, hi]; rfl
    refine .unseen hevent ?_
    simp only [announce, hi]
    exact .refl n
  | some i =>
    have hevent : (Job.announce e m).event? n = some (.stateUpdate .success e m i.source i.present
        (if i.isIdle then none else some i.target) i.phase) := by rw [Job.event?, hi]; rfl
    simp only [announce, hi]
    exact .event hevent

theorem outset_carryOut (n : Node) (r : Request) :
    n.Outset (.carryOut r) (n.beginCarryOut r) := by
  unfold beginCarryOut
  split
  next h => exact .unseen (by rw [Job.event?, h]) (.refl n)
  next h =>
    refine .event ?_
    simp only [Job.event?]

theorem outset_follow (n : Node) (e : UInt8) (m : Model) (v : Value) :
    n.Outset (.follow e m v) (n.beginFollow e m v) := by
  unfold beginFollow
  split
  · exact .follow e m v n.depth []
  · dsimp only
    split
    · exact .follow e m v n.depth []
    · exact .follow e m v (n.depth + 1) _

theorem unseen_start {motion : Option Motion} :
    n.Unseen (n.beginStart e m v t d s motion).node := by
  unfold beginStart
  split
  · exact .refl n
  · exact .note (.modify fun _ => ⟨rfl, rfl, rfl⟩) (by simp)

theorem unseen_program : n.Unseen (n.beginProgram e m v t d s).node := by
  unfold beginProgram
  split
  · exact .refl n
  · dsimp only
    split
    · exact .arm (.modify fun _ => ⟨rfl, rfl, rfl⟩)
    · split
      · exact .modify fun _ => ⟨rfl, rfl, rfl⟩
      · exact .cancel (.modify fun _ => ⟨rfl, rfl, rfl⟩)

theorem unseen_settle : n.Unseen (n.beginSettle e m v s).node := by
  unfold beginSettle
  split
  · exact .refl n
  · exact .modify fun _ => ⟨rfl, rfl, rfl⟩

theorem unseen_halt : n.Unseen (n.beginHalt e m).node := by
  unfold beginHalt
  have hstopped : n.Unseen (n.cancel (transitionTimer e m)) := .cancel (.refl n)
  dsimp only
  split
  · exact hstopped
  · split <;> exact hstopped.trans (.modify fun _ => ⟨rfl, rfl, rfl⟩)

theorem unseen_answer {c : Envelope} : n.Unseen (n.beginAnswer c m).node := by
  unfold beginAnswer
  split
  · exact .refl n
  · split
    · exact .refl n
    · split
      · exact .modify fun _ => ⟨rfl, rfl, rfl⟩
      · exact .refl n

theorem unseen_onTransition : n.Unseen (n.beginOnTransition e m).node := by
  unfold beginOnTransition
  split
  · exact .refl n
  · split
    · exact .modify fun _ => ⟨rfl, rfl, rfl⟩
    · split
      · split
        · exact .refl n
        · split
          · exact .modify fun _ => ⟨rfl, rfl, rfl⟩
          · exact .refl n
      · exact .refl n

theorem unseen_expire {timer : Timer} : n.Unseen (n.beginExpire timer).node := by
  unfold beginExpire
  split
  · exact unseen_onTransition
  · exact .modify fun _ => ⟨rfl, rfl, rfl⟩

/-! ### Messages -/

theorem unseen_receive {c : Envelope} {message : Message} :
    n.Unseen (n.beginReceive c message).node := by
  have hwith {α : Type} {p : Except (List Violation) α} {act : α → Moment}
      (h : ∀ a, n.Unseen (act a).node) : n.Unseen (n.beginWith p act).node := by
    cases p with
    | ok a => exact h a
    | error vs => exact .refl n
  have hset (i : Instance) (p : Params Value) (ack : Bool) :
      n.Unseen (n.beginSet c i p ack).node := by
    unfold beginSet
    split
    · exact .refl n
    · exact (Unseen.refl n).remember
  unfold beginReceive
  split
  · exact .refl n
  next i _ =>
    unfold beginProcess
    split
    · exact .refl n
    · exact hwith fun p => hset i p _
    · exact hwith fun p => hset i p _
    · exact hwith fun p => hset i p _
    · exact hwith fun _ => .modify fun _ => ⟨rfl, rfl, rfl⟩
    · exact hwith fun _ => .modify fun _ => ⟨rfl, rfl, rfl⟩
    · exact hwith fun _ => .remember (.modify fun _ => ⟨rfl, rfl, rfl⟩)
    · refine hwith fun p => ?_
      unfold beginMove
      split
      · exact .refl n
      · exact (Unseen.refl n).remember

/-! ### Calls -/

theorem unseen_reset (n : Node) : n.Unseen n.reset where
  config := rfl
  depth := rfl
  now := now_reset
  mute := .of_log rfl
  shown e m := by
    rw [shown?, get?_reset, Option.map_map]
    rfl
  last e m := by
    rw [last?, get?_reset, Option.map_map]
    rfl

theorem outset_restore (n : Node) (s : Snapshot) :
    n.Outset (.call (.restore s)) ⟨n.handle (.restore s), []⟩ := by
  rcases restore_cases n s with ⟨-, hs⟩ | ⟨-, -, -, hs⟩
  · rw [hs]
    exact .unseen rfl (.refl n)
  · rw [hs]
    exact .load s

theorem outset_call (n : Node) (x : Call) : n.Outset (.call x) (n.beginCall x) := by
  cases x with
  | receive c message => exact .unseen rfl unseen_receive
  | query e m => exact .event rfl
  | storeScene e slot =>
    refine .unseen rfl ?_
    simp only [beginCall, beginStoreScene]
    split
    · exact .refl n
    · split
      · exact .refl n
      · refine .foldl (g := fun n m => n.storeIn e slot m) (fun _ _ => ?_) _ n
        exact .modify fun _ => ⟨rfl, rfl, rfl⟩
  | recallScene e slot transition =>
    refine .unseen rfl ?_
    simp only [beginCall, beginRecallScene]
    split
    · exact .refl n
    · split <;> exact .refl n
  | setLightDefault e l =>
    refine .unseen rfl ?_
    simp only [beginCall, beginSetLightDefault]
    split
    · exact .modify_of_get? fun _ _ => ⟨rfl, rfl, rfl⟩
    · exact .refl n
  | setLightRange e lo hi =>
    refine .unseen rfl ?_
    simp only [beginCall, beginSetLightRange]
    split
    · exact .refl n
    next i hi =>
      split
      · refine .modify_of_get? fun j hj => ⟨rfl, rfl, ?_⟩
        obtain rfl := Option.some.inj (hi.symm.trans hj)
        rfl
      · exact .refl n
  | reset => exact .unseen rfl (unseen_reset n)
  | restore s => exact outset_restore n s
  | keepSaved e m => exact .unseen rfl (.modify fun _ => ⟨rfl, rfl, rfl⟩)
  | request | publish | publishPeriodically | sendStatus | powerUp => exact .unseen rfl (.refl n)
  | _ => exact .unseen rfl ⟨rfl, rfl, rfl, .of_log rfl, fun _ _ => rfl, fun _ _ => rfl⟩

theorem outset_begin (n : Node) (j : Job) : n.Outset j (n.begin j) := by
  cases j with
  | announce e m => exact outset_announce n e m
  | publish e m => exact .unseen rfl (.publish n e m)
  | save e m => exact .unseen rfl (.save n e m)
  | sendStatus e m reply => exact .unseen rfl (.sendStatus n e m _ _ _)
  | reportLight e status => exact .event rfl
  | reportStored e v => exact .event rfl
  | display e m v s => exact .display e m v s
  | resolveEdge e m => exact .unseen rfl (.modify fun _ => ⟨rfl, rfl, rfl⟩)
  | ascend => exact .ascend
  | follow e m v => exact outset_follow n e m v
  | obey v b => exact .unseen rfl (.note (.refl n) (by simp))
  | carryOut r => exact outset_carryOut n r
  | start e m v t d s motion => exact .unseen rfl unseen_start
  | program e m v t d s => exact .unseen rfl unseen_program
  | embark e m v t s stepped => exact .unseen rfl (.arm (.refl n))
  | settle e m v s => exact .unseen rfl unseen_settle
  | halt e m => exact .unseen rfl unseen_halt
  | answer c m => exact .unseen rfl unseen_answer
  | expire timer => exact .unseen rfl unseen_expire
  | call x => exact outset_call n x

/-! ## What jobs have in common -/

theorem now_begin (n : Node) (j : Job) : (n.begin j).node.now = n.now := by
  have h := outset_begin n j
  generalize n.begin j = c at h ⊢
  cases h with
  | event => exact (tells_emit n _).evolves.now
  | display | follow | ascend | load => rfl
  | unseen _ h => exact h.now

theorem begin_of_event {ev : Event} (hj : j.event? n = some ev) : n.begin j = ⟨n.emit ev, []⟩ := by
  have h := outset_begin n j
  generalize n.begin j = c at h ⊢
  cases h with
  | event h => rw [Option.some.inj (hj.symm.trans h)]
  | display | follow | ascend | load => cases hj
  | unseen h _ => cases hj.symm.trans h

theorem mute_begin (hj : j.event? n = none) : n.Mute (n.begin j).node := by
  have h := outset_begin n j
  generalize n.begin j = c at h ⊢
  cases h with
  | event h => cases hj.symm.trans h
  | display | follow | ascend | load => exact .of_log rfl
  | unseen _ h => exact h.mute

theorem shown?_begin (hdisplay : ∀ e m v s, j ≠ .display e m v s)
    (hrestore : ∀ s, j ≠ .call (.restore s)) (e : UInt8) (m : Model) :
    (n.begin j).node.shown? e m = n.shown? e m := by
  have h := outset_begin n j
  generalize n.begin j = c at h ⊢
  cases h with
  | @event _ ev _ =>
    obtain ⟨xs, heq, -⟩ := tells_emit n ev
    rw [heq]
    rfl
  | display e m v s => exact absurd rfl (hdisplay e m v s)
  | follow | ascend => rfl
  | load s => exact absurd rfl (hrestore s)
  | unseen _ h => exact h.shown e m

theorem last?_begin (hdisplay : ∀ e m v s, j ≠ .display e m v s)
    (hrestore : ∀ s, j ≠ .call (.restore s)) (e : UInt8) (m : Model) :
    (n.begin j).node.last? e m = n.last? e m := by
  have h := outset_begin n j
  generalize n.begin j = c at h ⊢
  cases h with
  | @event _ ev _ =>
    obtain ⟨xs, heq, -⟩ := tells_emit n ev
    rw [heq]
    rfl
  | display e m v s => exact absurd rfl (hdisplay e m v s)
  | follow | ascend => rfl
  | load s => exact absurd rfl (hrestore s)
  | unseen _ h => exact h.last e m

end Node

end MeshNode
