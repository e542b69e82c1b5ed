import MeshNode.Proofs.Bindings.LampsInStep

/-! # What is refused changes nothing

A node looks at an input before it does anything about it. If it refuses the input it is left as it
was, instances, timers and clock, and nothing is sent, saved or passed on. The application hears of
a request or a light setting that was refused, and of nothing else.
-/

namespace MeshNode.Node

variable {n : Node} {e : UInt8} {m : Model} {x : Call} {event : Event} {event? : Option Event}

def hearing? (n : Node) (event : Event) : Option Effect :=
  (n.listeners.hearer? event).map (.heard · event)

def lightRefusal (n : Node) (e : UInt8) (status : Status) : Event :=
  .stateUpdate status e .lightness .application
    ((n.present? e .lightness).getD (.initial .lightness)) none .idle

/-- The node refuses a call, and the application is told so by an event if there is one. -/
inductive Refuses (n : Node) : Call → Option Event → Prop where
  | receive {c : Envelope} {message : Message} (h : (n.receive c message).2 ≠ .accepted) :
    Refuses n (.receive c message) none
  | publishPeriodically {e : UInt8} {m : Model} (h : (n.publishPeriodically e m).2 ≠ .success) :
    Refuses n (.publishPeriodically e m) none
  | storeScene {e : UInt8} {slot : Nat} (h : (n.storeScene e slot).2 ≠ .success) :
    Refuses n (.storeScene e slot) none
  | recallScene {e : UInt8} {slot transition : Nat}
    (h : (n.recallScene e slot transition).2 ≠ .success) :
    Refuses n (.recallScene e slot transition) none
  | restore {s : Snapshot} (h : ∀ n', n.restore s ≠ .ok n') : Refuses n (.restore s) none
  | request {r : Request} (h : (n.request r).2 ≠ .success) :
    Refuses n (.request r)
      (some (.stateUpdate (n.request r).2 r.element r.model r.source r.value none .idle))
  | setLightDefault {e : UInt8} {default : Lightness}
    (h : (n.setLightDefault e default).2 ≠ .success) :
    Refuses n (.setLightDefault e default)
      (some (n.lightRefusal e (n.setLightDefault e default).2))
  | setLightRange {e : UInt8} {lo hi : Lightness} (h : (n.setLightRange e lo hi).2 ≠ .success) :
    Refuses n (.setLightRange e lo hi) (some (n.lightRefusal e (n.setLightRange e lo hi).2))

/-! ## Refusals that nobody hears of -/

theorem publishPeriodically_of_refused (h : (n.publishPeriodically e m).2 ≠ .success) :
    (n.publishPeriodically e m).1 = n := by
  unfold publishPeriodically at h ⊢
  split at h
  · exact absurd rfl h
  next hh => rw [if_neg hh]

theorem storeScene_of_refused {slot : Nat} (h : (n.storeScene e slot).2 ≠ .success) :
    (n.storeScene e slot).1 = n := by
  rcases storeScene_cases n e slot with ⟨heq, -⟩ | ⟨models, heq⟩
  · exact heq
  · exact absurd (by rw [heq]) h

theorem recallScene_of_refused {slot transition : Nat}
    (h : (n.recallScene e slot transition).2 ≠ .success) :
    (n.recallScene e slot transition).1 = n := by
  rcases recallScene_cases n e slot transition with ⟨heq, -⟩ | ⟨requests, -, heq⟩
  · exact heq
  · exact absurd (by rw [heq]) h

theorem restore_of_refused {s : Snapshot} (h : ∀ n', n.restore s ≠ .ok n') :
    n.handle (.restore s) = n := by
  rcases restore_cases n s with ⟨-, heq⟩ | ⟨-, -, hok, -⟩
  · exact heq
  · exact absurd hok (h _)

/-! ## Refusals that the application hears of -/

theorem emit_eq (n : Node) (event : Event) :
    n.emit event = { n with log := (n.hearing? event).toList ++ n.log } := by
  unfold emit hearing?
  cases n.listeners.hearer? event <;> rfl

theorem request_of_refused {r : Request} (h : (n.request r).2 ≠ .success) : (n.request r).1 =
    n.emit (.stateUpdate (n.request r).2 r.element r.model r.source r.value none .idle) := by
  unfold request at h ⊢
  dsimp only at h ⊢
  unfold carryOut
  split
  next hc => exact absurd hc h
  next => rfl

theorem setLightDefault_of_refused {default : Lightness}
    (h : (n.setLightDefault e default).2 ≠ .success) : (n.setLightDefault e default).1 =
      n.emit (n.lightRefusal e (n.setLightDefault e default).2) := by
  unfold setLightDefault at h ⊢
  split
  next hh => exact absurd (by rw [if_pos hh]; rfl) h
  next => rfl

theorem setLightRange_of_refused {lo hi : Lightness}
    (h : (n.setLightRange e lo hi).2 ≠ .success) : (n.setLightRange e lo hi).1 =
      n.emit (n.lightRefusal e (n.setLightRange e lo hi).2) := by
  rcases setLightRange_cases n e lo hi with ⟨status, -, heq⟩ | ⟨i, light, hget, -, -, heq⟩
  · rw [heq]
    rfl
  · rcases heq with heq | ⟨l, heq⟩
    · exact absurd (by rw [heq]; rfl) h
    · exact absurd (by rw [heq]; exact check_retuned hget light l) h

/-- Refusing is all that a node does about a call that it refuses: but for the event that the
application hears, if there is one and it listens, the node is as it was. -/
theorem handle_of_refuses (h : n.Refuses x event?) :
    n.handle x = { n with log := (event?.bind n.hearing?).toList ++ n.log } := by
  cases h with
  | receive h => exact receive_eq_self h
  | publishPeriodically h => exact publishPeriodically_of_refused h
  | storeScene h => exact storeScene_of_refused h
  | recallScene h => exact recallScene_of_refused h
  | restore h => exact restore_of_refused h
  | request h => exact (request_of_refused h).trans (emit_eq n _)
  | setLightDefault h => exact (setLightDefault_of_refused h).trans (emit_eq n _)
  | setLightRange h => exact (setLightRange_of_refused h).trans (emit_eq n _)

/-- A repeat, a level that is asked of a switch's element and a range that is none, in the middle of
a delayed change that somebody waits for. -/
theorem handle_of_refuses_lamp :
    let repeated : Call := .receive ⟨0, 7, 0, true⟩ (.set .level [16, 39, 1, 74, 200] true)
    let n := lamp.run [.call (.listen .level "levels"), .call (.listen .lightness "lamps"),
      .call repeated, .advance 700]
    let r : Request := .application 1 (.level 5) 0 0
    let update : Event := .stateUpdate .invalidElement 1 .level .application (.level 5) none .idle
    let update' : Event :=
      .stateUpdate .invalidParam 0 .lightness .application (.lightness 0) none .idle
    n.awaited? 0 .level = some ⟨7, 0, true⟩ ∧ n.Refuses repeated none ∧ n.handle repeated = n ∧
      n.Refuses (.request r) (some update) ∧
      n.handle (.request r) = { n with log := .heard "levels" update :: n.log } ∧
      n.Refuses (.setLightRange 0 9 3) (some update') ∧
      n.handle (.setLightRange 0 9 3) = { n with log := .heard "lamps" update' :: n.log } := by
  intro repeated n r update update'
  have hrepeated : n.Refuses repeated none := .receive (by decide +kernel)
  have hstatus : (n.request r).2 = .invalidElement := by decide +kernel
  have hrequest : n.Refuses (.request r) (some update) := by
    have h : n.Refuses (.request r) _ := .request (by rw [hstatus]; decide)
    rwa [hstatus] at h
  have hstatus' : n.lightRefusal 0 (n.setLightRange 0 9 3).2 = update' := by decide +kernel
  have hrange : n.Refuses (.setLightRange 0 9 3) (some update') := by
    rw [← hstatus']
    exact .setLightRange (by decide +kernel)
  have hheard : n.hearing? update = some (.heard "levels" update) := by decide +kernel
  have hheard' : n.hearing? update' = some (.heard "lamps" update') := by decide +kernel
  have hawaited : n.awaited? 0 .level = some ⟨7, 0, true⟩ := by decide +kernel
  -- All that is needed of the run is known by now.
  clear_value n
  have h := handle_of_refuses hrequest
  rw [Option.bind_some, hheard] at h
  have h' := handle_of_refuses hrange
  rw [Option.bind_some, hheard'] at h'
  exact ⟨hawaited, hrepeated, handle_of_refuses hrepeated, hrequest, h, hrange, h'⟩

end MeshNode.Node
