import MeshNode.Proofs.Node.Runs

/-! # What an instance remembers

An accepted message with a transaction is remembered until a timer makes the instance forget it.
Only another accepted message, a restart or a loaded snapshot touches the memory before.
-/

namespace MeshNode.Node

variable {n n' : Node} {e : UInt8} {m : Model} {src : UInt16} {k : UInt8} {x : Call}
  {c : Envelope} {message : Message} {timer : Timer} {ts : Timers} {horizon : Nat}

def memory (n : Node) (e : UInt8) (m : Model) : Option Transaction × Option Nat :=
  ((n.get? e m).map Instance.transaction, n.timers.deadline? (transactionTimer e m))

def IsBlank (n : Node) (e : UInt8) (m : Model) : Prop :=
  ∀ t, (n.memory e m).1 = some t → t.source = unassigned

/-- The call is a message of the transaction that the instance accepts. -/
def Accepts (n : Node) (e : UInt8) (m : Model) (src : UInt16) (k : UInt8) : Call → Prop
  | .receive c message => c.element = e ∧ message.model = m ∧ c.src = src ∧
    message.tid? = some k ∧ (n.receive c message).2 = .accepted
  | _ => False

def Clears (n : Node) (e : UInt8) (m : Model) : Call → Prop
  | .reset => True
  | .restore s => s.image.element = e ∧ s.image.model = m ∧ ∃ n', n.restore s = .ok n'
  | _ => False

theorem Accepts.inj {src' : UInt16} {k' : UInt8} (h : n.Accepts e m src k x)
    (h' : n.Accepts e m src' k' x) : (src', k') = (src, k) := by
  cases x with
  | receive c message =>
    obtain ⟨-, -, rfl, hk, -⟩ := h
    obtain ⟨-, -, rfl, hk', -⟩ := h'
    rw [Option.some.inj (hk'.symm.trans hk)]
  | _ => exact h.elim

theorem Accepts.not_clears (h : n.Accepts e m src k x) : ¬ n.Clears e m x := by
  cases x with
  | receive c message => exact id
  | _ => exact h.elim

/-! ## Calls -/

theorem Evolves.memory (h : n.Evolves n') (e : UInt8) (m : Model) :
    n'.memory e m = n.memory e m :=
  Prod.ext (h.transaction e m) (h.expiry e m)

theorem memory_remember_self {ack : Bool} (hh : n.hosts c.element m) :
    (n.remember c m k ack).memory c.element m =
      (some ⟨c.src, k⟩, some (Timers.onClock (n.now + n.config.dedupTimeout.toNat))) := by
  obtain ⟨i, hi⟩ := hosts_iff.mp hh
  refine Prod.ext ?_ Timers.deadline?_arm_self
  rw [memory, get?_remember, get?_modify_self, hi]
  rfl

theorem memory_remember_of_ne {ack : Bool} (hx : (e, m) ≠ (c.element, message.model)) :
    (n.remember c message.model k ack).memory e m = n.memory e m := by
  refine Prod.ext ?_ (Timers.deadline?_arm_of_ne fun ht => hx (transactionTimer_inj ht))
  rw [memory, get?_remember, get?_modify_of_ne hx]
  rfl

/-- What becomes of the memory of an instance in a call. -/
inductive Recollection (n : Node) (e : UInt8) (m : Model) (x : Call) (n' : Node) : Prop where
  | kept (hm : n'.memory e m = n.memory e m) (ha : ∀ src k, ¬ n.Accepts e m src k x)
    (hc : ¬ n.Clears e m x)
  | renewed {src : UInt16} {k : UInt8} (ha : n.Accepts e m src k x)
    (hm : n'.memory e m =
      (some ⟨src, k⟩, some (Timers.onClock (n.now + n.config.dedupTimeout.toNat))))
    (hin : n'.timers.WithinClock → Timers.onClock (n.now + n.config.dedupTimeout.toNat) =
      n.now + n.config.dedupTimeout.toNat)
  | cleared (hc : n.Clears e m x) (hb : n'.IsBlank e m)

theorem recollection_receive (hn : n.Typed) (c : Envelope) (message : Message) (e : UInt8)
    (m : Model) : Recollection n e m (.receive c message) (n.receive c message).1 := by
  rcases receive_evolves hn c message with ⟨he, hno⟩ | ⟨n₀, k, ack, h₀, hk, hout, hh, he⟩
  · refine .kept (he.memory e m) ?_ id
    rintro src k ⟨-, -, -, hk, hout⟩
    rcases hno with hno | hno
    · rw [hno] at hk
      cases hk
    · exact hno hout
  · have h₀ := h₀.evolves
    by_cases hx : (e, m) = (c.element, message.model)
    · obtain ⟨rfl, rfl⟩ := Prod.mk.injEq .. ▸ hx
      refine .renewed ⟨rfl, rfl, rfl, hk, hout⟩ ?_ fun hin => ?_
      · rw [← h₀.hosts] at hh
        rw [he.memory, memory_remember_self hh, h₀.now, h₀.config]
      · rw [← h₀.now, ← h₀.config]
        exact (hin.of_suffix he.armings).onClock_armed
    · refine .kept ?_ ?_ id
      · rw [he.memory, memory_remember_of_ne hx, h₀.memory]
      · rintro src k ⟨rfl, rfl, -⟩
        exact hx rfl

theorem isBlank_reset (n : Node) (e : UInt8) (m : Model) : n.reset.IsBlank e m := by
  intro t ht
  rw [memory, get?_reset, Option.map_map] at ht
  obtain ⟨i, -, rfl⟩ := Option.map_eq_some_iff.mp ht
  rfl

theorem isBlank_loaded (n : Node) (image : Image) :
    (n.loaded image).IsBlank image.element image.model := by
  intro t ht
  rw [memory, loaded, get?_modify_self, Option.map_map] at ht
  obtain ⟨i, -, rfl⟩ := Option.map_eq_some_iff.mp ht
  rfl

theorem memory_loaded_of_ne {image : Image} (hx : (e, m) ≠ (image.element, image.model)) :
    (n.loaded image).memory e m = n.memory e m := by
  refine Prod.ext ?_ ?_
  · rw [memory, loaded, get?_modify_of_ne hx]
    rfl
  · have hne : transactionTimer e m ≠ transactionTimer image.element image.model :=
      fun ht => hx (transactionTimer_inj ht)
    exact (Timers.deadline?_cancel_of_ne hne).trans
      (Timers.deadline?_cancel_of_ne (transactionTimer_ne _ _ _ _))

theorem recollection_restore (n : Node) (s : Snapshot) (e : UInt8) (m : Model) :
    Recollection n e m (.restore s) (n.handle (.restore s)) := by
  rcases restore_cases n s with ⟨hno, h⟩ | ⟨-, -, hok, h⟩
  · rw [h]
    refine .kept rfl (fun _ _ => id) ?_
    rintro ⟨-, -, n', hn'⟩
    exact hno n' hn'
  · rw [h]
    by_cases hx : (e, m) = (s.image.element, s.image.model)
    · obtain ⟨rfl, rfl⟩ := Prod.mk.injEq .. ▸ hx
      exact .cleared ⟨rfl, rfl, _, hok⟩ (isBlank_loaded n s.image)
    · refine .kept (memory_loaded_of_ne hx) (fun _ _ => id) ?_
      rintro ⟨rfl, rfl, -⟩
      exact hx rfl

theorem memory_handle (hreceive : ∀ c message, x ≠ .receive c message) (hreset : x ≠ .reset)
    (hrestore : ∀ s, x ≠ .restore s) (e : UInt8) (m : Model) :
    (n.handle x).memory e m = n.memory e m := by
  rcases handle_cases n x with h | ⟨table, h, -⟩ | rfl | ⟨s, rfl⟩ | ⟨c, message, rfl⟩
  · exact h.evolves.memory e m
  · rw [h]
    rfl
  · exact absurd rfl hreset
  · exact absurd rfl (hrestore s)
  · exact absurd rfl (hreceive c message)

theorem recollection (hn : n.Typed) (x : Call) (e : UInt8) (m : Model) :
    Recollection n e m x (n.handle x) := by
  cases x with
  | receive c message => exact recollection_receive hn c message e m
  | reset => exact .cleared trivial (isBlank_reset n e m)
  | restore s => exact recollection_restore n s e m
  | _ => exact .kept (memory_handle (by simp) (by simp) (by simp) e m) (fun _ _ => id) id

/-! ## The passing of time -/

/-- As time passes a memory is kept until it is forgotten, at the time that was set or later. -/
theorem memory_step (h : n.Sound) (hs : Step (fun _ _ => False) n n') (e : UInt8) (m : Model) :
    n'.memory e m = n.memory e m ∨
      (∃ d, (n.memory e m).2 = some d ∧ d ≤ n'.now) ∧ n'.IsBlank e m := by
  cases hs with
  | call x hx => exact hx.elim
  | passage hp => exact .inl rfl
  | @expiry horizon timer ts hp =>
    have hpopped (hne : transactionTimer e m ≠ timer) :
        ({ n with timers := ts } : Node).memory e m = n.memory e m :=
      Prod.ext rfl (Timers.deadline?_pop?_of_ne hp hne)
    obtain ⟨e', m', rfl | rfl⟩ := timer_cases timer
    · rw [onTimer_transition]
      have he := evolves_onTransition (h.popped hp).typed e' m'
      exact .inl ((he.memory e m).trans (hpopped (transactionTimer_ne _ _ _ _)))
    · rw [onTimer_transaction]
      by_cases hx : (e, m) = (e', m')
      · obtain ⟨rfl, rfl⟩ := Prod.mk.injEq .. ▸ hx
        refine .inr ⟨Timers.deadline?_popped_le hp, fun t ht => ?_⟩
        rw [memory, expired, get?_modify_self, Option.map_map] at ht
        obtain ⟨i, -, rfl⟩ := Option.map_eq_some_iff.mp ht
        rfl
      · refine .inl (.trans ?_ (hpopped fun ht => hx (transactionTimer_inj ht)))
        rw [memory, expired, get?_modify_of_ne hx]
        rfl

theorem memory_steps (h : n.Sound) (hs : Steps (fun _ _ => False) n n') (e : UInt8) (m : Model) :
    n'.memory e m = n.memory e m ∨
      (∃ d, (n.memory e m).2 = some d ∧ d ≤ n'.now) ∧ n'.IsBlank e m := by
  induction hs with
  | refl => exact .inl rfl
  | @tail n₁ n₂ hs hstep ih =>
    have hnow := (step_precedes (h.steps hs) hstep).now
    rcases memory_step (h.steps hs) hstep e m with hm | ⟨hd, hb⟩
    · rcases ih with ih | ⟨⟨d, hd, hle⟩, hb⟩
      · exact .inl (hm.trans ih)
      · exact .inr ⟨⟨d, hd, hle.trans hnow⟩, by rwa [IsBlank, hm]⟩
    · rcases ih with ih | ⟨⟨d, hd', hle⟩, -⟩
      · exact .inr ⟨ih ▸ hd, hb⟩
      · exact .inr ⟨⟨d, hd', hle.trans hnow⟩, hb⟩

end MeshNode.Node
