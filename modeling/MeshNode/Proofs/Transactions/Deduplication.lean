import Mathlib.Data.List.Induction
import MeshNode.Proofs.Node.NewNodes
import MeshNode.Proofs.Transactions.TransactionMemory

/-! # Repeats are recognised exactly

Over a whole run a message is refused as a repeat if and only if its transaction was accepted less
than the timeout ago and nothing has made the instance forget it since.
-/

namespace MeshNode.Node

variable {n n' : Node} {e : UInt8} {m : Model} {src : UInt16} {k : UInt8} {x : Call}
  {c : Envelope} {message : Message} {op : Operation} {ops : List Operation} {t : Nat}

/-! ## The history of a transaction -/

/-- The call makes the instance forget the transaction before its time. -/
def Evicts (n : Node) (e : UInt8) (m : Model) (src : UInt16) (k : UInt8) (x : Call) : Prop :=
  (∃ src' k', n.Accepts e m src' k' x ∧ (src', k') ≠ (src, k)) ∨ n.Clears e m x

/-- In a run the instance accepted a message of the transaction at a time and nothing has evicted
it since. -/
def AcceptedAt (n : Node) (ops : List Operation) (e : UInt8) (m : Model) (src : UInt16) (k : UInt8)
    (t : Nat) : Prop :=
  ∃ pre x post, ops = pre ++ .call x :: post ∧ (n.run pre).Accepts e m src k x ∧
    (n.run pre).now = t ∧
    ((n.run pre).handle x).Admits (fun n y => ¬ n.Evicts e m src k y) post

theorem admits_concat {P : Node → Call → Prop} (h : n.Admits P ops)
    (hop : ∀ x, op = .call x → P (n.run ops) x) : n.Admits P (ops ++ [op]) := by
  induction ops generalizing n with
  | nil => exact ⟨hop, trivial⟩
  | cons op' ops ih => exact ⟨h.1, ih h.2 hop⟩

theorem AcceptedAt.latest (h : (n.run ops).Accepts e m src k x) :
    n.AcceptedAt (ops ++ [.call x]) e m src k (n.run ops).now :=
  ⟨ops, x, [], rfl, h, rfl, trivial⟩

theorem AcceptedAt.concat (h : n.AcceptedAt ops e m src k t)
    (hop : ∀ x, op = .call x → ¬ (n.run ops).Evicts e m src k x) :
    n.AcceptedAt (ops ++ [op]) e m src k t := by
  obtain ⟨pre, x, post, rfl, ha, ht, hpost⟩ := h
  refine ⟨pre, x, post ++ [op], by simp, ha, ht, admits_concat hpost fun y hy => ?_⟩
  have hrun : n.run (pre ++ .call x :: post) = ((n.run pre).handle x).run post := run_append ..
  rw [← hrun]
  exact hop y hy

/-! ## What is remembered was accepted -/

theorem IsBuilt.isBlank (hn : n.IsBuilt) (e : UInt8) (m : Model) : n.IsBlank e m := by
  intro t ht
  obtain ⟨i, hi, rfl⟩ := Option.map_eq_some_iff.mp ht
  rw [(hn.isFresh hi).1]
  rfl

/-- What an instance remembers was accepted, and is forgotten once the timeout has passed. -/
theorem acceptedAt_of_memory (hn : n.IsBuilt) {d : Option Nat}
    (hm : (n.run ops).memory e m = (some ⟨src, k⟩, d)) (hsrc : src ≠ unassigned) :
    ∃ t, n.AcceptedAt ops e m src k t ∧
      d = some (Timers.onClock (t + n.config.dedupTimeout.toNat)) := by
  -- The run is taken apart at its end: the last operation kept the memory, made it or cleared it.
  induction ops using List.reverseRecOn generalizing d with
  | nil => exact absurd (hn.isBlank e m _ (congrArg Prod.fst hm)) hsrc
  | append_singleton ops op ih =>
    have hs := hn.sound.run ops
    rw [run_concat] at hm
    have hblank : ¬ ((n.run ops).perform op).IsBlank e m :=
      fun hb => hsrc (hb _ (congrArg Prod.fst hm))
    by_cases hop : ∃ x, op = .call x
    · obtain ⟨x, rfl⟩ := hop
      rcases recollection hs.typed x e m with ⟨hkept, ha, hc⟩ | ⟨ha, hnew⟩ | ⟨-, hb⟩
      · obtain ⟨t, ht, hd⟩ := ih (hkept.symm.trans hm)
        refine ⟨t, ht.concat ?_, hd⟩
        rintro y ⟨⟩ (⟨src', k', ha', -⟩ | hc')
        · exact ha src' k' ha'
        · exact hc hc'
      · obtain ⟨ht, hd⟩ := Prod.mk.injEq .. ▸ hm.symm.trans hnew
        obtain ⟨rfl, rfl⟩ := Transaction.mk.injEq .. ▸ Option.some.inj ht
        refine ⟨_, .latest ha, ?_⟩
        rw [hd, (run_precedes hn.sound ops).config]
      · exact absurd hb hblank
    · have hop : ∀ x, op ≠ .call x := not_exists.mp hop
      rcases memory_steps hs (passage_steps hop) e m with hkept | ⟨-, hb⟩
      · obtain ⟨t, ht, hd⟩ := ih (hkept.symm.trans hm)
        exact ⟨t, ht.concat fun x hx => absurd hx (hop x), hd⟩
      · exact absurd hb hblank

/-! ## What was accepted is remembered -/

/-- The instance remembers the transaction, until a time or longer. -/
def RemembersUntil (n : Node) (e : UInt8) (m : Model) (src : UInt16) (k : UInt8) (t : Nat) : Prop :=
  (∃ d, n.memory e m = (some ⟨src, k⟩, some d) ∧ t ≤ d) ∨ t ≤ n.now

theorem RemembersUntil.passage (h : n.RemembersUntil e m src k t)
    (hn : n.Sound) (hs : Steps (fun _ _ => False) n n') : n'.RemembersUntil e m src k t := by
  have hnow := (steps_precedes hn hs).now
  rcases h with ⟨d, hm, hle⟩ | hle
  · rcases memory_steps hn hs e m with hkept | ⟨⟨d', hd, hle'⟩, -⟩
    · exact .inl ⟨d, hkept.trans hm, hle⟩
    · rw [hm] at hd
      obtain rfl := Option.some.inj hd
      exact .inr (hle.trans hle')
  · exact .inr (hle.trans hnow)

theorem RemembersUntil.perform (h : n.RemembersUntil e m src k t) (hn : n.Sound)
    (hop : ∀ x, op = .call x → ¬ n.Evicts e m src k x)
    (hin : (n.perform op).timers.WithinClock) (ht : t ≤ n.now + n.config.dedupTimeout.toNat) :
    (n.perform op).RemembersUntil e m src k t := by
  cases op with
  | call x =>
    have hkeeps := hop x rfl
    have hnow := (handle_precedes hn.typed x).now
    rcases h with ⟨d, hm, hle⟩ | hle
    · rcases recollection hn.typed x e m with ⟨hkept, -, -⟩ | ⟨ha, hnew, hexact⟩ | ⟨hc, -⟩
      · exact .inl ⟨d, hkept.trans hm, hle⟩
      · refine .inl ⟨_, ?_, (hexact hin).symm ▸ ht⟩
        by_contra hne
        refine hkeeps (.inl ⟨_, _, ha, fun heq => hne ?_⟩)
        obtain ⟨rfl, rfl⟩ := Prod.mk.injEq .. ▸ heq
        exact hnew
      · exact absurd (.inr hc) hkeeps
    · exact .inr (hle.trans hnow)
  | advance ms => exact h.passage hn (advanceTo_steps _ _ _)
  | advanceTo horizon => exact h.passage hn (advanceTo_steps _ _ _)

theorem RemembersUntil.run (h : n.RemembersUntil e m src k t) (hn : n.Sound)
    (hops : n.Admits (fun n y => ¬ n.Evicts e m src k y) ops)
    (hin : (n.run ops).timers.WithinClock) (ht : t ≤ n.now + n.config.dedupTimeout.toNat) :
    (n.run ops).RemembersUntil e m src k t := by
  induction ops generalizing n with
  | nil => exact h
  | cons op ops ih =>
    have hle := run_precedes hn [op]
    have hin' : (n.perform op).timers.WithinClock :=
      (run_precedes (hn.perform op) ops).withinClock hin
    refine ih (h.perform hn hops.1 hin' ht) (hn.perform op) hops.2 hin (ht.trans ?_)
    exact Nat.add_le_add hle.now (by rw [← hle.config]; exact Nat.le_refl _)

/-- A transaction that was accepted is remembered until the timeout has passed. -/
theorem memory_of_acceptedAt (hn : n.IsBuilt) (hin : (n.run ops).timers.WithinClock)
    (h : n.AcceptedAt ops e m src k t)
    (hlt : (n.run ops).now < t + n.config.dedupTimeout.toNat) :
    ∃ d, (n.run ops).memory e m = (some ⟨src, k⟩, d) := by
  obtain ⟨pre, x, post, rfl, ha, rfl, hpost⟩ := h
  have hs := hn.sound.run pre
  have hle := handle_precedes hs.typed x
  have hconfig := (run_precedes hn.sound pre).config
  have hrun : n.run (pre ++ .call x :: post) = ((n.run pre).handle x).run post := run_append ..
  rw [hrun] at hin hlt ⊢
  have hfirst : ((n.run pre).handle x).RemembersUntil e m src k
      ((n.run pre).now + n.config.dedupTimeout.toNat) := by
    rcases recollection hs.typed x e m with ⟨-, ha', -⟩ | ⟨ha', hnew, hexact⟩ | ⟨hc, -⟩
    · exact absurd ha (ha' src k)
    · obtain ⟨rfl, rfl⟩ := Prod.mk.injEq .. ▸ ha.inj ha'
      have hexact := hexact ((run_precedes (hs.handle x) post).withinClock hin)
      rw [hconfig] at hnew hexact
      exact .inl ⟨_, hnew, hexact.ge⟩
    · exact absurd hc ha.not_clears
  have htimeout : (n.run pre).now + n.config.dedupTimeout.toNat ≤
      ((n.run pre).handle x).now + ((n.run pre).handle x).config.dedupTimeout.toNat :=
    Nat.add_le_add hle.now (by rw [hle.config, hconfig])
  rcases hfirst.run (hs.handle x) hpost hin htimeout with ⟨d, hm, -⟩ | hover
  · exact ⟨some d, hm⟩
  · exact absurd hlt (Nat.not_lt.mpr hover)

/-! ## Verdicts -/

theorem outcome_of_tid {i : Instance} (hi : n.get? c.element message.model = some i)
    (hk : message.tid? = some k) : (n.receive c message).2 =
      if message.isDelta = false ∧ i.transaction.isRepeat c.src k = true then .duplicate
      else .accepted := by
  have hr := reception n c message
  generalize n.receive c message = res at hr ⊢
  cases hr with
  | absent h => simp [h] at hi
  | dropped hk' => simp [hk'] at hk
  | answered m hm h =>
    rw [hm] at hk
    cases hk
  | stored hk' => simp [hk'] at hk
  | duplicate hi' hk' hd hr =>
    obtain rfl := Option.some.inj (hi'.symm.trans hi)
    obtain rfl := Option.some.inj (hk'.symm.trans hk)
    rw [if_pos ⟨hd, hr⟩]
  | taken ack hi' hk' hr h₀ hlog h₁ h =>
    obtain rfl := Option.some.inj (hi'.symm.trans hi)
    obtain rfl := Option.some.inj (hk'.symm.trans hk)
    rw [if_neg]
    rintro ⟨hd, hrepeat⟩
    rcases hr with hr | hr
    · exact absurd (hr.symm.trans hd) (by decide)
    · exact absurd (hr.symm.trans hrepeat) (by decide)

theorem isRepeat_iff {t : Transaction} :
    t.isRepeat src k = true ↔ src ≠ unassigned ∧ t = ⟨src, k⟩ := by
  obtain ⟨source, tid⟩ := t
  simp only [Transaction.isRepeat, Bool.and_eq_true, decide_eq_true_eq, Transaction.mk.injEq]
  constructor
  · rintro ⟨⟨h, rfl⟩, rfl⟩
    exact ⟨h, rfl, rfl⟩
  · rintro ⟨h, rfl, rfl⟩
    exact ⟨⟨h, rfl⟩, rfl⟩

theorem isRepeat_iff_acceptedAt {i : Instance} (hn : n.IsBuilt)
    (hin : (n.run ops).timers.WithinClock) (hi : (n.run ops).get? e m = some i) :
    i.transaction.isRepeat src k = true ↔
      src ≠ unassigned ∧ ∃ t, n.AcceptedAt ops e m src k t ∧
        (n.run ops).now < t + n.config.dedupTimeout.toNat := by
  have hmemory : ((n.run ops).memory e m).1 = some i.transaction :=
    congrArg (Option.map Instance.transaction) hi
  rw [isRepeat_iff]
  constructor
  · rintro ⟨hsrc, heq⟩
    rw [heq] at hmemory
    obtain ⟨t, ht, hd⟩ := acceptedAt_of_memory hn (Prod.ext hmemory rfl) hsrc
    refine ⟨hsrc, t, ht, ?_⟩
    have hlt := hn.atRest.run hn.sound ops hin _ (Timers.mem_of_deadline? hd)
    exact Nat.lt_of_lt_of_le hlt (Timers.onClock_le _)
  · rintro ⟨hsrc, t, ht, hlt⟩
    obtain ⟨d, hm⟩ := memory_of_acceptedAt hn hin ht hlt
    rw [hm] at hmemory
    exact ⟨hsrc, (Option.some.inj hmemory).symm⟩

/-- A message of a transaction that reaches a hosted instance is refused as a repeat exactly if
the transaction was accepted less than the timeout ago and not evicted since; else it is accepted
and remembered from now on. Only relative changes are accepted even then. A message that is not
accepted changes nothing. No timer may have been armed past the end of the clock. -/
theorem duplicate_iff_acceptedAt (hn : n.IsBuilt) (hn' : n' = n.run ops)
    (hin : n'.timers.WithinClock) (hh : n'.hosts c.element message.model)
    (hk : message.tid? = some k) :
    (message.isDelta = false → ((n'.receive c message).2 = .duplicate ↔ c.src ≠ unassigned ∧
      ∃ t, n.AcceptedAt ops c.element message.model c.src k t ∧
        n'.now < t + n.config.dedupTimeout.toNat)) ∧
    (message.isDelta = true → (n'.receive c message).2 = .accepted) ∧
    ((n'.receive c message).2 ≠ .duplicate → (n'.receive c message).2 = .accepted) ∧
    ((n'.receive c message).2 = .accepted →
      (n'.receive c message).1.memory c.element message.model =
        (some ⟨c.src, k⟩, some (Timers.onClock (n'.now + n.config.dedupTimeout.toNat)))) ∧
    ∀ c message, (n'.receive c message).2 ≠ .accepted → (n'.receive c message).1 = n' := by
  subst hn'
  obtain ⟨i, hi⟩ := hosts_iff.mp hh
  have hverdict := outcome_of_tid hi hk
  refine ⟨fun hd => ?_, fun hd => ?_, fun hne => ?_, fun haccepted => ?_,
    fun _ _ => receive_eq_self⟩
  · rw [← isRepeat_iff_acceptedAt hn hin hi, hverdict]
    simp [hd]
  · rw [hverdict]
    simp [hd]
  · rw [hverdict] at hne ⊢
    split at hne
    · exact absurd rfl hne
    next h => rw [if_neg h]
  · have haccepts : (n.run ops).Accepts c.element message.model c.src k (.receive c message) :=
      ⟨rfl, rfl, rfl, hk, haccepted⟩
    rcases recollection_receive (hn.sound.run ops).typed c message c.element message.model with
      ⟨-, ha, -⟩ | ⟨ha, hm, -⟩ | ⟨hc, -⟩
    · exact absurd haccepts (ha c.src k)
    · obtain ⟨rfl, rfl⟩ := Prod.mk.injEq .. ▸ haccepts.inj ha
      rw [hm, (run_precedes hn.sound ops).config]
    · exact absurd hc haccepts.not_clears

/-- A level message from client 17 that asks for 100 under number 5, again within the timeout. -/
theorem duplicate_iff_acceptedAt_soloLevel :
    let c : Envelope := ⟨0, 17, 0, true⟩
    let message : Message := .set .level [100, 0, 5] false
    let n := soloLevel.run [.call (.receive c message), .advance 5999]
    (n.receive c message).2 = .duplicate ∧
      ((n.run [.advance 1]).receive c message).2 = .accepted := by
  intro c message n
  have hfirst : soloLevel.AcceptedAt [.call (.receive c message), .advance 5999] 0 .level 17 5 0 :=
    ⟨[], _, [.advance 5999], rfl, ⟨rfl, rfl, rfl, rfl, by decide +kernel⟩, rfl, by simp, trivial⟩
  have hh : n.hosts c.element message.model := by decide +kernel
  have hk : message.tid? = some 5 := rfl
  have hin : n.timers.WithinClock := by decide +kernel
  obtain ⟨hiff, -⟩ := duplicate_iff_acceptedAt isBuilt_soloLevel (.refl n) hin hh hk
  refine ⟨(hiff rfl).mpr ⟨by decide, 0, hfirst, by decide +kernel⟩, by decide +kernel⟩

/-- At the end of the clock the memory of a message is due at once, and the message is accepted a
second time in the same millisecond. -/
theorem accepted_again_soloLevel :
    let c : Envelope := ⟨0, 17, 0, true⟩
    let message : Message := .set .level [100, 0, 5] false
    let ops : List Operation := [.advance lastMoment, .call (.receive c message), .advance 0]
    soloLevel.IsBuilt ∧ c.src ≠ unassigned ∧ message.isDelta = false ∧
      soloLevel.AcceptedAt ops 0 .level 17 5 lastMoment ∧
      (soloLevel.run ops).now < lastMoment + soloLevel.config.dedupTimeout.toNat ∧
      ((soloLevel.run ops).receive c message).2 = .accepted := by
  intro c message ops
  have hfirst : soloLevel.AcceptedAt ops 0 .level 17 5 lastMoment :=
    ⟨[.advance lastMoment], _, [.advance 0], rfl, ⟨rfl, rfl, rfl, rfl, by decide +kernel⟩,
      by decide +kernel, by simp, trivial⟩
  exact ⟨isBuilt_soloLevel, by decide, rfl, hfirst, by decide +kernel, by decide +kernel⟩

end MeshNode.Node
