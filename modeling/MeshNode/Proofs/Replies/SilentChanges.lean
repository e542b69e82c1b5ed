import MeshNode.Proofs.Node.ChangeParts
import MeshNode.Proofs.Transactions.DeltaOrigins
import MeshNode.Proofs.Transition.SettlingOnTime

/-! # Changes without an answer

Answers are given to messages and at the end of a delay only. All else that a node does for an
instance, and all that bindings make of it, leaves alone who waits for an answer of the instance and
answers nobody.
-/

namespace MeshNode

def Effect.replyFor? (element : UInt8) (model : Model) : Effect → Option Reply
  | .out (.sent r) => if r.element = element ∧ r.model = model then some r else none
  | _ => none

namespace Node

def repliesFor (n : Node) (element : UInt8) (model : Model) : List Reply :=
  n.log.filterMap (Effect.replyFor? element model)

/-- The instance has answered nobody, and whoever waited for an answer still does. -/
structure KeepsWaiting (e : UInt8) (m : Model) (n n' : Node) : Prop where
  isConnected : n'.isConnected = n.isConnected
  replies : n'.repliesFor e m = n.repliesFor e m
  awaited : n'.awaited? e m = n.awaited? e m

variable {n n' : Node} {e e' : UInt8} {m m' : Model} {f : Instance → Instance} {x : Effect}
  {v w : Value} {t d : Nat} {s : Source} {i : Instance} {motion : Option Motion} {k : Motion}

namespace KeepsWaiting

theorem refl (n : Node) : n.KeepsWaiting e m n := ⟨rfl, rfl, rfl⟩

section Extend

variable (h : KeepsWaiting e m n n')
include h

theorem trans {n'' : Node} (h' : KeepsWaiting e m n' n'') : KeepsWaiting e m n n'' :=
  ⟨h'.isConnected.trans h.isConnected, h'.replies.trans h.replies, h'.awaited.trans h.awaited⟩

theorem note (hx : x.replyFor? e m = none) : KeepsWaiting e m n (n'.note x) where
  isConnected := h.isConnected
  replies := by
    rw [repliesFor, Node.note, List.filterMap_cons, hx]
    exact h.replies
  awaited := h.awaited

theorem modify (hf : ∀ i, (f i).pendingReply = i.pendingReply) :
    KeepsWaiting e m n (n'.modify e' m' f) where
  isConnected := h.isConnected
  replies := h.replies
  awaited := by
    rw [← h.awaited]
    by_cases hx : (e, m) = (e', m')
    · obtain ⟨rfl, rfl⟩ := Prod.mk.injEq .. ▸ hx
      rw [awaited?, get?_modify_self, Option.bind_map]
      exact congrArg _ (funext hf)
    · rw [awaited?, get?_modify_of_ne hx]
      rfl

theorem modify_of_ne (hx : (e, m) ≠ (e', m')) : KeepsWaiting e m n (n'.modify e' m' f) where
  isConnected := h.isConnected
  replies := h.replies
  awaited := by
    rw [awaited?, get?_modify_of_ne hx]
    exact h.awaited

theorem timers (ts : Timers) : KeepsWaiting e m n { n' with timers := ts } :=
  ⟨h.isConnected, h.replies, h.awaited⟩

theorem foldl {α : Type} {f : Node → α → Node}
    (hf : ∀ n' a, KeepsWaiting e m n n' → KeepsWaiting e m n (f n' a)) (as : List α) :
    KeepsWaiting e m n (as.foldl f n') :=
  List.foldlRecOn as f h fun n₁ h₁ a _ => hf n₁ a h₁

/-! ## Telling the outside -/

theorem emit (ev : Event) : KeepsWaiting e m n (n'.emit ev) := by
  unfold Node.emit
  split
  · exact h.note rfl
  · exact h

theorem publish : KeepsWaiting e m n (n'.publish e' m') := by
  unfold Node.publish handOver
  split
  · split
    · exact h.note rfl
    · exact h
  · exact h

theorem save : KeepsWaiting e m n (n'.save e' m') := by
  unfold Node.save
  split
  · split
    · exact h.note rfl
    · exact h
  · exact h

theorem announce : KeepsWaiting e m n (n'.announce e' m') := by
  unfold Node.announce
  split
  · exact h.emit _
  · exact h

/-! ## Changes of state -/

theorem display : KeepsWaiting e m n (n'.display e' m' w s) := h.modify fun _ => rfl

section Follow

variable {follow : Follow} (hfollow : ∀ (n' : Node) (e' : UInt8) (m' : Model) (v : Value),
  KeepsWaiting e m n n' → KeepsWaiting e m n (follow n' e' m' v))
include hfollow

theorem passOn : KeepsWaiting e m n (n'.passOn follow e' m' w s) := by
  unfold Node.passOn
  split
  · exact hfollow n' e' m' w h
  · exact h

theorem settle : KeepsWaiting e m n (n'.settle follow e' m' w s) := by
  unfold Node.settle
  split
  · exact h
  · refine announce (save (publish ?_))
    have hset : KeepsWaiting e m n (n'.modify e' m' fun i =>
        { i with
          remaining := 0, delay := 0, stepping := .none, motion := none, target := w,
          edgeResolved := false }) :=
      h.modify fun _ => rfl
    split
    · exact hset.display
    · exact hset.display.passOn hfollow

theorem embark {b : Bool} : KeepsWaiting e m n (n'.embark follow e' m' w t s b) := by
  unfold Node.embark
  refine announce ?_
  split
  · dsimp only
    split
    · exact .modify (hfollow _ e' m' w (.display (h.timers _))) fun _ => rfl
    · exact .display (h.timers _)
  · exact h.timers _

theorem program : KeepsWaiting e m n (n'.program follow e' m' w t d s) := by
  unfold Node.program
  split
  · exact h
  · have hset : KeepsWaiting e m n (n'.modify e' m' fun i =>
        { i with remaining := t, delay := d, source := s, target := w }) :=
      h.modify fun _ => rfl
    dsimp only
    split
    · exact .announce (hset.timers _)
    · split
      · exact hset.embark hfollow
      · exact (hset.timers _).settle hfollow

theorem start : KeepsWaiting e m n (n'.start follow e' m' w t d s motion) := by
  unfold Node.start
  split
  · exact h
  · refine program (note ?_ rfl) hfollow
    exact h.modify fun _ => rfl

theorem carryOut {r : Request} : KeepsWaiting e m n (n'.carryOut follow r) := by
  unfold Node.carryOut
  split
  · exact h.start hfollow
  · exact h.emit _

end Follow

omit h in
theorem closedUnderBindings :
    ClosedUnderBindings fun n' n'' => KeepsWaiting e m n n' → KeepsWaiting e m n n'' where
  refl _ := id
  trans h h' := h' ∘ h
  note _ _ _ _ h := h.note rfl
  depth _ _ h := ⟨h.isConnected, h.replies, h.awaited⟩
  carryOut hfollow _ _ h := h.carryOut hfollow

omit h in
theorem follows (n' : Node) (e' : UInt8) (m' : Model) (v : Value) (h : KeepsWaiting e m n n') :
    KeepsWaiting e m n (n'.follow e' m' v) :=
  closedUnderBindings.follow n' e' m' v h

/-! ## Progress -/

theorem visit : KeepsWaiting e m n (n'.visit e' m' w s) := h.display.passOn follows

theorem halt : KeepsWaiting e m n (n'.halt e' m') := by
  unfold Node.halt
  dsimp only
  split
  · exact h.timers _
  · split
    · exact (h.timers _).modify fun _ => rfl
    · refine settle ?_ follows
      exact (h.timers _).modify fun _ => rfl

theorem stepOn : KeepsWaiting e m n (n'.stepOn e' m' i) := by
  have hset : KeepsWaiting e m n
      (n'.modify e' m' fun i => { i with stepping := i.stepping.next }) :=
    h.modify fun _ => rfl
  have hvisit : KeepsWaiting e m n ((n'.modify e' m' fun i =>
      { i with stepping := i.stepping.next }).visit e' m'
        (i.present.shift i.stepping.increment) i.source) :=
    hset.visit
  unfold Node.stepOn
  dsimp only
  split
  · exact hvisit.settle follows
  · exact (hvisit.program follows).publish

theorem moveOn : KeepsWaiting e m n (n'.moveOn e' m' i k) := by
  unfold Node.moveOn
  dsimp only
  split
  · exact h.settle follows
  · exact (h.visit.program follows).publish

end Extend

end KeepsWaiting

section Calls

variable {c : Envelope} {message : Message} {slot : Nat}

end Calls

/-! ## Steps -/

end Node

end MeshNode
