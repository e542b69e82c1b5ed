import MeshNode.Proofs.Storage.Histories
import MeshNode.Proofs.Node.Runs

/-! # Scene slots last

A scene slot of an instance is written when a scene is stored in it and when a snapshot is loaded
into the instance. Whatever else a node does, at once or in the jobs that this leaves, keeps all the
slots of all its instances.
-/

namespace MeshNode

open Moment

def Job.LeavesSlots (j : Job) : Prop :=
  (∀ e slot, j ≠ .call (.storeScene e slot)) ∧ ∀ s, j ≠ .call (.restore s)

namespace Node

variable {n n' n'' : Node} {e e' : UInt8} {m m' : Model} {f : Instance → Instance} {v : Value}
  {t d slot slot' : Nat} {s : Source} {j : Job} {motion : Option Motion}

def slot? (n : Node) (e : UInt8) (m : Model) (slot : Nat) : Option Value :=
  (n.get? e m).bind (·.scene? slot)

/-- From the first node to the second all scene slots stay as they are. -/
def KeepsSlots (n n' : Node) : Prop := ∀ e m slot, n'.slot? e m slot = n.slot? e m slot

namespace KeepsSlots

theorem refl (n : Node) : n.KeepsSlots n := fun _ _ _ => rfl

theorem trans (h : n.KeepsSlots n') (h' : n'.KeepsSlots n'') : n.KeepsSlots n'' :=
  fun e m slot => (h' e m slot).trans (h e m slot)

theorem tells (h : n.KeepsSlots n') (ht : n'.Tells n'') : n.KeepsSlots n'' := by
  obtain ⟨es, rfl, -⟩ := ht
  exact h

theorem arm {timer : Timer} {after : Nat} (h : n.KeepsSlots n') :
    n.KeepsSlots (n'.arm timer after) := h

theorem cancel {timer : Timer} (h : n.KeepsSlots n') : n.KeepsSlots (n'.cancel timer) := h

theorem note {x : Effect} (h : n.KeepsSlots n') : n.KeepsSlots (n'.note x) := h

theorem modify (hf : ∀ i, (f i).scenes = i.scenes) : n.KeepsSlots (n.modify e m f) := by
  intro e' m' slot
  by_cases hx : (e', m') = (e, m)
  · obtain ⟨rfl, rfl⟩ := Prod.mk.injEq .. ▸ hx
    rw [slot?, slot?, get?_modify_self]
    cases n.get? e' m' with
    | none => rfl
    | some i => simp [Instance.scene?, hf]
  · rw [slot?, get?_modify_of_ne hx]
    rfl

theorem remember {c : Envelope} {k : UInt8} {ack : Bool} (h : n.KeepsSlots n') :
    n.KeepsSlots (n'.remember c m k ack) :=
  .arm (h.trans (.modify fun _ => rfl))

end KeepsSlots

/-! ## Job by job -/

theorem keepsSlots_start : n.KeepsSlots (n.beginStart e m v t d s motion).node := by
  unfold beginStart
  split
  · exact .refl n
  · exact .note (.modify fun _ => rfl)

theorem keepsSlots_program : n.KeepsSlots (n.beginProgram e m v t d s).node := by
  unfold beginProgram
  split
  · exact .refl n
  · dsimp only
    split
    · exact .arm (.modify fun _ => rfl)
    · split
      · exact .modify fun _ => rfl
      · exact .cancel (.modify fun _ => rfl)

theorem keepsSlots_settle : n.KeepsSlots (n.beginSettle e m v s).node := by
  unfold beginSettle
  split
  · exact .refl n
  · exact .modify fun _ => rfl

theorem keepsSlots_halt : n.KeepsSlots (n.beginHalt e m).node := by
  have hstopped : n.KeepsSlots (n.cancel (transitionTimer e m)) := .cancel (.refl n)
  unfold beginHalt
  dsimp only
  split
  · exact hstopped
  · split <;> exact hstopped.trans (.modify fun _ => rfl)

theorem keepsSlots_answer {c : Envelope} : n.KeepsSlots (n.beginAnswer c m).node := by
  unfold beginAnswer
  split
  · exact .refl n
  · split
    · exact .refl n
    · split
      · exact .modify fun _ => rfl
      · exact .refl n

theorem keepsSlots_expire {timer : Timer} : n.KeepsSlots (n.beginExpire timer).node := by
  unfold beginExpire
  split
  · unfold beginOnTransition
    split
    · exact .refl n
    · split
      · exact .modify fun _ => rfl
      · split
        · split
          · exact .refl n
          · split
            · exact .modify fun _ => rfl
            · exact .refl n
        · exact .refl n
  · exact .modify fun _ => rfl

theorem keepsSlots_receive {c : Envelope} {message : Message} :
    n.KeepsSlots (n.beginReceive c message).node := by
  have hwith {α : Type} {p : Except (List Violation) α} {act : α → Moment}
      (h : ∀ a, n.KeepsSlots (act a).node) : n.KeepsSlots (n.beginWith p act).node := by
    cases p with
    | ok a => exact h a
    | error vs => exact .refl n
  have hset (i : Instance) (p : Params Value) (ack : Bool) :
      n.KeepsSlots (n.beginSet c i p ack).node := by
    unfold beginSet
    split
    · exact .refl n
    · exact (KeepsSlots.refl n).remember
  unfold beginReceive
  split
  · exact .refl n
  next i _ =>
    unfold beginProcess
    split
    · exact .refl n
    · exact hwith fun p => hset i p _
    · exact hwith fun p => hset i p _
    · exact hwith fun p => hset i p _
    · exact hwith fun _ => .modify fun _ => rfl
    · exact hwith fun _ => .modify fun _ => rfl
    · exact hwith fun _ => .remember (.modify fun _ => rfl)
    · refine hwith fun p => ?_
      unfold beginMove
      split
      · exact .refl n
      · exact (KeepsSlots.refl n).remember

theorem keepsSlots_reset (n : Node) : n.KeepsSlots n.reset := by
  intro e m slot
  rw [slot?, slot?, get?_reset]
  cases n.get? e m <;> rfl

theorem keepsSlots_call {x : Call} (hx : (Job.call x).LeavesSlots) :
    n.KeepsSlots (n.beginCall x).node := by
  cases x with
  | receive c message => exact keepsSlots_receive
  | query e m => exact (KeepsSlots.refl n).tells (tells_emit n _)
  | storeScene e slot => exact absurd rfl (hx.1 e slot)
  | recallScene e slot transition =>
    simp only [beginCall, beginRecallScene]
    split
    · exact .refl n
    · split <;> exact .refl n
  | setLightDefault e l =>
    simp only [beginCall, beginSetLightDefault]
    split
    · exact .modify fun _ => rfl
    · exact .refl n
  | setLightRange e lo hi =>
    simp only [beginCall, beginSetLightRange]
    split
    · exact .refl n
    · split
      · exact .modify fun _ => rfl
      · exact .refl n
  | reset => exact keepsSlots_reset n
  | restore s => exact absurd rfl (hx.2 s)
  | keepSaved e m => exact .modify fun _ => rfl
  | _ => exact .refl n

theorem keepsSlots_begin (n : Node) (hj : j.LeavesSlots) : n.KeepsSlots (n.begin j).node := by
  cases j with
  | announce e m => exact (KeepsSlots.refl n).tells (tells_announce n e m)
  | publish e m => exact (KeepsSlots.refl n).tells (tells_publish n e m)
  | save e m => exact (KeepsSlots.refl n).tells (tells_save n e m)
  | sendStatus e m reply => exact (KeepsSlots.refl n).tells (tells_sendStatus n e m _ _ _)
  | reportLight e status => exact (KeepsSlots.refl n).tells (tells_emit n _)
  | reportStored e v => exact (KeepsSlots.refl n).tells (tells_emit n _)
  | display e m v s => exact .modify fun _ => rfl
  | resolveEdge e m => exact .modify fun _ => rfl
  | ascend => exact .refl n
  | follow e m v =>
    simp only [begin, beginFollow]
    split
    · exact .refl n
    · split <;> exact .refl n
  | obey v b => exact .note (.refl n)
  | carryOut r =>
    simp only [begin, beginCarryOut]
    split
    · exact .refl n
    · exact (KeepsSlots.refl n).tells (tells_emit n _)
  | start e m v t d s motion => exact keepsSlots_start
  | program e m v t d s => exact keepsSlots_program
  | embark e m v t s stepped => exact .arm (.refl n)
  | settle e m v s => exact keepsSlots_settle
  | halt e m => exact keepsSlots_halt
  | answer c m => exact keepsSlots_answer
  | expire timer => exact keepsSlots_expire
  | call x => exact keepsSlots_call hj

theorem keepsSlots_later {c c' : Moment} (hc : ∀ j ∈ c.agenda, j.LeavesSlots)
    (h : Later (fun _ _ => False) c c') :
    c.node.KeepsSlots c'.node ∧ ∀ j ∈ c'.agenda, j.LeavesSlots := by
  induction h with
  | refl => exact ⟨.refl _, hc⟩
  | tail _ hnext ih =>
    obtain ⟨hkeeps, hagenda⟩ := ih
    cases hnext with
    | work n j js =>
      obtain ⟨hj, hjs⟩ := List.forall_mem_cons.mp hagenda
      refine ⟨hkeeps.trans (keepsSlots_begin n hj), fun j' hj' => ?_⟩
      rcases List.mem_append.mp hj' with hleft | hold
      · -- a job that is left is no call
        exact ⟨fun e slot heq => call_notMem_begin n j _ (heq ▸ hleft),
          fun s heq => call_notMem_begin n j _ (heq ▸ hleft)⟩
      · exact hjs j' hold
    | call x hx => exact hx.elim
    | expiry _ => exact ⟨hkeeps, by simp [Job.LeavesSlots]⟩
    | passage _ => exact ⟨hkeeps, by simp⟩

theorem keepsSlots_work (n : Node) (hj : j.LeavesSlots) : n.KeepsSlots (n.work j) :=
  (keepsSlots_later (c := ⟨n, [j]⟩) (by simpa using hj) (later_work _ n j [])).1

/-! ## Storing scenes and loading snapshots -/

theorem slot?_storeScene (hne : e' = e → slot' ≠ slot) (m : Model) :
    (n.storeScene e' slot').1.slot? e m slot = n.slot? e m slot := by
  have hstoreIn (n : Node) (m' : Model) :
      (n.storeIn e' slot' m').slot? e m slot = n.slot? e m slot := by
    rw [slot?, slot?, storeIn]
    by_cases hx : (e, m) = (e', m')
    · obtain ⟨rfl, rfl⟩ := Prod.mk.injEq .. ▸ hx
      rw [get?_modify_self]
      cases n.get? e m with
      | none => rfl
      | some i => simp [Instance.scene?, List.getElem?_set_ne (hne rfl)]
    · rw [get?_modify_of_ne hx]
  have hsave (n : Node) (m' : Model) : (n.save e' m').slot? e m slot = n.slot? e m slot :=
    (KeepsSlots.refl n).tells (tells_save n e' m') e m slot
  rcases storeScene_cases n e' slot' with ⟨heq, -⟩ | ⟨models, heq⟩
  · rw [heq]
  · rw [heq]
    refine List.foldlRecOn (motive := fun n' => n'.slot? e m slot = n.slot? e m slot) models _ ?_
      fun n' hn m' _ => (hsave n' m').trans hn
    exact List.foldlRecOn (motive := fun n' => n'.slot? e m slot = n.slot? e m slot) models _ rfl
      fun n' hn m' _ => (hstoreIn n' m').trans hn

theorem slot?_loaded {image : Image} (hne : image.element ≠ e) (m : Model) (slot : Nat) :
    (n.loaded image).slot? e m slot = n.slot? e m slot := by
  have hx : (e, m) ≠ (image.element, image.model) := fun hx => hne (Prod.mk.inj hx).1.symm
  rw [slot?, loaded, get?_modify_of_ne hx]
  rfl

/-! ## Steps -/

/-- The call neither stores a scene in a slot of an element nor loads a snapshot on the element. -/
def SparesSlot (e : UInt8) (slot : Nat) (n : Node) (x : Call) : Prop :=
  x ≠ .storeScene e slot ∧
    ∀ s, x = .restore s → s.image.element = e → ∀ n', n.restore s ≠ .ok n'

theorem slot?_handle {x : Call} (hx : n.SparesSlot e slot x) (m : Model) :
    (n.handle x).slot? e m slot = n.slot? e m slot := by
  by_cases hleaves : (Job.call x).LeavesSlots
  · exact keepsSlots_work n hleaves e m slot
  cases x with
  | storeScene e' slot' =>
    exact slot?_storeScene (fun he hslot => hx.1 (by rw [he, hslot])) m
  | restore s =>
    rcases restore_cases n s with ⟨-, heq⟩ | ⟨-, -, hok, heq⟩
    · rw [heq]
    · rw [heq]
      exact slot?_loaded (fun he => hx.2 s rfl he _ hok) m slot
  | _ => exact absurd (by simp [Job.LeavesSlots]) hleaves

theorem slot?_step (h : Step (SparesSlot e slot) n n') (m : Model) :
    n'.slot? e m slot = n.slot? e m slot := by
  cases h with
  | call x hx => exact slot?_handle hx m
  | @expiry horizon timer ts hp =>
    exact keepsSlots_work (j := .expire timer) { n with timers := ts } (by simp [Job.LeavesSlots])
      e m slot
  | passage => rfl

/-- A slot of an element holds what it does until a scene is stored there again or a snapshot is
loaded on the element. -/
theorem slot?_steps (h : Steps (SparesSlot e slot) n n') (m : Model) :
    n'.slot? e m slot = n.slot? e m slot := by
  induction h with
  | refl => rfl
  | tail _ hstep ih => exact (slot?_step hstep m).trans ih

end Node

end MeshNode
