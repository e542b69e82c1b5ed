import MeshNode.Proofs.Transactions.Deduplication
import MeshNode.Proofs.Transactions.DeltaOrigins

/-! # Where a drag starts

A client drags a level by relative changes that are all part of one transaction. What they start
from follows from the messages that the level accepted and has not forgotten: the level that the
first relative change of the transaction found, or, if the transaction began with another message,
what the last relative change before it started from.
-/

namespace MeshNode

/-- A message of a transaction that a level accepted, and the value that it found. -/
structure Delivery where
  time : Nat
  source : UInt16
  tid : UInt8
  isDelta : Bool
  found : Value
  deriving DecidableEq

namespace Delivery

variable {source : UInt16} {tid : UInt8} {d : Delivery} {past : List Delivery} {v : Value}

/-- The deliveries since the last time that the timeout passed without one, latest first. -/
def unforgotten (timeout : Nat) : Nat → List Delivery → List Delivery
  | _, [] => []
  | now, d :: past => if now < d.time + timeout then d :: unforgotten timeout d.time past else []

/-- The deliveries of the transaction that a message goes on with, latest first. -/
def current (source : UInt16) (tid : UInt8) (past : List Delivery) : List Delivery :=
  if source = unassigned then []
  else past.takeWhile fun d => decide (d.source = source ∧ d.tid = tid)

/-- The value that the first relative change of the transaction found, that being the message itself
if there was none before. -/
def start (source : UInt16) (tid : UInt8) (past : List Delivery) (found : Value) : Value :=
  (((current source tid past).filter isDelta).getLast?.map Delivery.found).getD found

/-- What the latest relative change started from. -/
def kept : List Delivery → Option Value
  | [] => none
  | d :: past =>
    if d.isDelta then
      some (if current d.source d.tid past = [] then d.found else (kept past).getD d.found)
    else kept past

/-- What a relative change starts from: what is kept, if it goes on with a transaction. -/
def origin (source : UInt16) (tid : UInt8) (past : List Delivery) (found : Value) : Value :=
  if current source tid past = [] then found else (kept past).getD found

/-- What is kept from before the transaction that a message goes on with, unless that began with a
relative change. -/
def stale (source : UInt16) (tid : UInt8) (past : List Delivery) : Option Value :=
  match (current source tid past).getLast? with
  | some first => if first.isDelta then none else kept (past.drop (current source tid past).length)
  | none => none

theorem kept_cons : kept (d :: past) =
    if d.isDelta then some (origin d.source d.tid past d.found) else kept past := rfl

theorem unforgotten_cons (timeout now : Nat) : unforgotten timeout now (d :: past) =
    if now < d.time + timeout then d :: unforgotten timeout d.time past else [] := rfl

theorem unforgotten_later {timeout now now' : Nat} (hle : now ≤ now')
    (h : ∀ d, (unforgotten timeout now past).head? = some d → now' < d.time + timeout) :
    unforgotten timeout now' past = unforgotten timeout now past := by
  cases past with
  | nil => rfl
  | cons d past =>
    rw [unforgotten_cons] at h ⊢
    by_cases hlt : now < d.time + timeout
    · rw [if_pos hlt] at h
      rw [if_pos (h d rfl), unforgotten_cons, if_pos hlt]
    · rw [if_neg (by omega), unforgotten_cons, if_neg hlt]

theorem unforgotten_eq_nil {timeout now now' : Nat} (hle : now ≤ now')
    (h : ∀ d, (unforgotten timeout now past).head? = some d → d.time + timeout ≤ now') :
    unforgotten timeout now' past = [] := by
  cases past with
  | nil => rfl
  | cons d past =>
    rw [unforgotten_cons] at h ⊢
    refine if_neg fun hlt => ?_
    rw [if_pos (Nat.lt_of_le_of_lt hle hlt)] at h
    exact absurd hlt (Nat.not_lt.mpr (h d rfl))

theorem current_cons_of_pair (hs : source ≠ unassigned) (hd : d.source = source)
    (hk : d.tid = tid) :
    current source tid (d :: past) = d :: current source tid past := by
  simp [current, hs, hd, hk]

theorem current_cons_of_ne (h : ¬ (source ≠ unassigned ∧ d.source = source ∧ d.tid = tid)) :
    current source tid (d :: past) = [] := by
  by_cases hs : source = unassigned
  · exact if_pos hs
  · rw [current, if_neg hs, List.takeWhile_cons_of_neg]
    exact fun hd => h ⟨hs, of_decide_eq_true hd⟩

theorem origin_of_current_eq_nil (h : current source tid past = []) :
    origin source tid past v = (stale source tid past).getD (start source tid past v) := by
  simp [origin, stale, start, h]

theorem stale_cons (hs : source ≠ unassigned) (hd : d.source = source) (hk : d.tid = tid)
    (hne : current source tid past ≠ []) :
    stale source tid (d :: past) = stale source tid past := by
  rw [stale, stale, current_cons_of_pair hs hd hk, List.getLast?_cons_of_ne_nil hne]
  rfl

/-- A relative change starts where its transaction did, unless something is kept from before the
transaction that should not be. -/
theorem origin_eq (source : UInt16) (tid : UInt8) (past : List Delivery) (v : Value) :
    origin source tid past v = (stale source tid past).getD (start source tid past v) := by
  -- The deliveries are walked from the latest: what is kept changes with a relative change, and
  -- what the transaction found goes on to the message before.
  induction past generalizing v with
  | nil => exact origin_of_current_eq_nil (by simp [current])
  | cons d past ih =>
    by_cases hpair : source ≠ unassigned ∧ d.source = source ∧ d.tid = tid
    · obtain ⟨hs, hd, hk⟩ := hpair
      have hcurrent : current source tid (d :: past) = d :: current source tid past :=
        current_cons_of_pair hs hd hk
      rw [origin, hcurrent, if_neg (List.cons_ne_nil _ _), kept_cons, hd, hk]
      by_cases hfirst : current source tid past = []
      · cases hdelta : d.isDelta <;>
          simp [stale, start, origin, hcurrent, hfirst, hdelta]
      · rw [stale_cons hs hd hk hfirst]
        cases hdelta : d.isDelta with
        | true =>
          rw [if_pos rfl, Option.getD_some, ih]
          congr 1
          rw [start, start, hcurrent, List.filter_cons_of_pos hdelta]
          cases hrest : (current source tid past).filter isDelta with
          | nil => rfl
          | cons d' rest =>
            rw [List.getLast?_cons_cons, List.getLast?_eq_some_getLast (List.cons_ne_nil _ _)]
            rfl
        | false =>
          have horigin : (kept past).getD v = origin source tid past v := (if_neg hfirst).symm
          rw [if_neg Bool.false_ne_true, horigin, ih, start, start, hcurrent,
            List.filter_cons_of_neg (by simp [hdelta])]
    · exact origin_of_current_eq_nil (current_cons_of_ne hpair)

theorem stale_eq_none (h : ∀ first, (current source tid past).getLast? = some first →
    first.isDelta = true ∨ kept (past.drop (current source tid past).length) = none) :
    stale source tid past = none := by
  unfold stale
  split
  next first hfirst =>
    split
    · rfl
    next hdelta => exact (h first hfirst).resolve_left hdelta
  next => rfl

theorem stale_of_set {first : Delivery} (hfirst : (current source tid past).getLast? = some first)
    (hset : first.isDelta = false) :
    stale source tid past = kept (past.drop (current source tid past).length) := by
  simp [stale, hfirst, hset]

theorem kept_eq_none_iff : kept past = none ↔ ∀ d ∈ past, d.isDelta = false := by
  induction past with
  | nil => simp [kept]
  | cons d past ih =>
    rw [kept_cons, List.forall_mem_cons, ← ih]
    cases d.isDelta <;> simp

end Delivery

namespace Node

variable {n n' : Node} {e : UInt8} {m : Model} {i : Instance} {c : Envelope} {message : Message}
  {src : UInt16} {k : UInt8} {past live : List Delivery} {op : Operation} {ops : List Operation}
  {timeout : Nat} {deadline : Option Nat}

/-- The deliveries of a level after an operation: one more if it accepts a message of a transaction,
and none if it starts anew. -/
def heard (n : Node) (e : UInt8) (past : List Delivery) : Operation → List Delivery
  | .call (.receive c message) =>
    match message.tid?, n.present? e .level with
    | some k, some v =>
      if c.element = e ∧ message.model = .level ∧ (n.receive c message).2 = .accepted then
        ⟨n.now, c.src, k, message.isDelta, v⟩ :: past
      else past
    | _, _ => past
  | .call .reset => []
  | .call (.restore s) =>
    if s.image.element = e ∧ s.image.model = .level ∧ (n.restore s).toOption.isSome then []
    else past
  | _ => past

/-- The deliveries of a level in a run, latest first. -/
def deliveries (n : Node) (e : UInt8) (ops : List Operation) : List Delivery :=
  (ops.foldl (fun s op => (s.1.perform op, s.1.heard e s.2 op)) (n, [])).2

theorem deliveries_concat (n : Node) (e : UInt8) (ops : List Operation) (op : Operation) :
    n.deliveries e (ops ++ [op]) = (n.run ops).heard e (n.deliveries e ops) op := by
  have hrun (past : List Delivery) :
      (ops.foldl (fun s op => (s.1.perform op, s.1.heard e s.2 op)) (n, past)).1 = n.run ops := by
    induction ops generalizing n past with
    | nil => rfl
    | cons op ops ih => exact ih _ _
  rw [deliveries, List.foldl_append, List.foldl_cons, List.foldl_nil, hrun]
  rfl

/-! ## What a level remembers of its deliveries -/

/-- An instance remembers the latest of the deliveries that are not forgotten, until the timeout has
passed, and what the latest relative change among them started from. -/
structure Recalls (timeout : Nat) (live : List Delivery) (i : Instance) (deadline : Option Nat) :
    Prop where
  latest : ∀ d, live.head? = some d →
    i.transaction = ⟨d.source, d.tid⟩ ∧ deadline = some (d.time + timeout)
  blank : live = [] → i.transaction.source = unassigned
  origin : i.deltaOrigin = Delivery.kept live

theorem Recalls.congr {j : Instance} (h : Recalls timeout live i deadline)
    (ht : j.transaction = i.transaction) (ho : j.deltaOrigin = i.deltaOrigin) :
    Recalls timeout live j deadline :=
  ⟨fun d hd => ht ▸ h.latest d hd, fun hnil => ht ▸ h.blank hnil, ho.trans h.origin⟩

theorem Recalls.isRepeat_iff (h : Recalls timeout live i deadline) :
    i.transaction.isRepeat src k = true ↔ Delivery.current src k live ≠ [] := by
  rw [Node.isRepeat_iff]
  cases live with
  | nil =>
    have hblank := h.blank rfl
    constructor
    · rintro ⟨hs, ht⟩
      rw [ht] at hblank
      exact absurd hblank hs
    · exact fun hne => absurd (by simp [Delivery.current]) hne
  | cons d past =>
    rw [(h.latest d rfl).1, Transaction.mk.injEq]
    constructor
    · rintro ⟨hs, hd, hk⟩
      simp [Delivery.current_cons_of_pair hs hd hk]
    · intro hne
      by_contra hpair
      exact hne (Delivery.current_cons_of_ne hpair)

theorem Recalls.deltaOrigin_eq (h : Recalls timeout live i deadline) :
    deltaOrigin i src k = Delivery.origin src k live i.present := by
  rw [deltaOrigin, Delivery.origin, h.origin]
  by_cases hne : Delivery.current src k live = []
  · have hno : ¬ i.transaction.isRepeat src k = true := fun hr => h.isRepeat_iff.mp hr hne
    rw [if_pos hne, if_neg hno]
  · rw [if_neg hne, if_pos (h.isRepeat_iff.mpr hne)]

/-- A level remembers its deliveries as far as they are not forgotten. -/
def Retains (n : Node) (e : UInt8) (past : List Delivery) : Prop :=
  ∀ i, n.get? e .level = some i →
    Recalls n.config.dedupTimeout.toNat
      (Delivery.unforgotten n.config.dedupTimeout.toNat n.now past) i
      (n.timers.deadline? (transactionTimer e .level))

/-! ## The passing of time -/

def keeping (n : Node) (e : UInt8) (m : Model) : Option (Transaction × Option Value) × Option Nat :=
  ((n.get? e m).map fun i => (i.transaction, i.deltaOrigin),
    n.timers.deadline? (transactionTimer e m))

def IsBare (n : Node) (e : UInt8) (m : Model) : Prop :=
  ∀ i, n.get? e m = some i → i.transaction.source = unassigned ∧ i.deltaOrigin = none

theorem keeping_eq (hm : n'.memory e m = n.memory e m)
    (ho : (n'.get? e m).map Instance.deltaOrigin = (n.get? e m).map Instance.deltaOrigin) :
    n'.keeping e m = n.keeping e m := by
  obtain ⟨ht, hd⟩ := Prod.mk.injEq .. ▸ hm
  refine Prod.ext ?_ hd
  cases hi : n.get? e m with
  | none =>
    have hi' : n'.get? e m = none := by simpa [hi] using ho
    simp only [keeping, hi, hi', Option.map_none]
  | some i =>
    rw [hi] at ho ht
    obtain ⟨j, hj, hjo⟩ := Option.map_eq_some_iff.mp ho
    rw [hj, Option.map_some, Option.map_some, Option.some.injEq] at ht
    simp only [keeping, hi, hj, Option.map_some, ht, hjo]

theorem IsBare.keeping (h : n.IsBare e m) (hr : n'.keeping e m = n.keeping e m) :
    n'.IsBare e m := by
  intro i hi
  have hfirst := congrArg Prod.fst hr
  simp only [Node.keeping, hi, Option.map_some] at hfirst
  obtain ⟨j, hj, hji⟩ := Option.map_eq_some_iff.mp hfirst.symm
  obtain ⟨ht, ho⟩ := Prod.mk.injEq .. ▸ hji
  rw [← ht, ← ho]
  exact h j hj

/-- As time passes both are kept until they are forgotten together, at the time that was set or
later. -/
theorem keeping_step (h : n.Sound) (hs : Step (fun _ _ => False) n n') (e : UInt8) (m : Model) :
    n'.keeping e m = n.keeping e m ∨
      (∃ d, (n.keeping e m).2 = some d ∧ d ≤ n'.now) ∧ n'.IsBare e m := by
  cases hs with
  | call x hx => exact hx.elim
  | passage hp => exact .inl rfl
  | @expiry horizon timer ts hp =>
    have hpopped (hne : transactionTimer e m ≠ timer) :
        ({ n with timers := ts } : Node).keeping e m = n.keeping e m :=
      Prod.ext rfl (Timers.deadline?_pop?_of_ne hp hne)
    obtain ⟨e', m', rfl | rfl⟩ := timer_cases timer
    · rw [onTimer_transition]
      have he := evolves_onTransition (h.popped hp).typed e' m'
      have hkept := keeping_eq (he.memory e m) ((KeepsOrigins.refl _).onTransition e m)
      exact .inl (hkept.trans (hpopped (transactionTimer_ne _ _ _ _)))
    · rw [onTimer_transaction]
      by_cases hx : (e, m) = (e', m')
      · obtain ⟨rfl, rfl⟩ := Prod.mk.injEq .. ▸ hx
        refine .inr ⟨Timers.deadline?_popped_le hp, fun i hi => ?_⟩
        rw [expired, get?_modify_self] at hi
        obtain ⟨j, -, rfl⟩ := Option.map_eq_some_iff.mp hi
        exact ⟨rfl, rfl⟩
      · refine .inl (.trans ?_ (hpopped fun ht => hx (transactionTimer_inj ht)))
        rw [keeping, expired, get?_modify_of_ne hx]
        rfl

theorem keeping_steps (h : n.Sound) (hs : Steps (fun _ _ => False) n n') (e : UInt8) (m : Model) :
    n'.keeping e m = n.keeping e m ∨
      (∃ d, (n.keeping e m).2 = some d ∧ d ≤ n'.now) ∧ n'.IsBare e m := by
  induction hs with
  | refl => exact .inl rfl
  | @tail n₁ n₂ hs hstep ih =>
    have hnow := (step_precedes (h.steps hs) hstep).now
    rcases keeping_step (h.steps hs) hstep e m with hr | ⟨hd, hb⟩
    · rcases ih with ih | ⟨⟨d, hd, hle⟩, hb⟩
      · exact .inl (hr.trans ih)
      · exact .inr ⟨⟨d, hd, hle.trans hnow⟩, hb.keeping hr⟩
    · rcases ih with ih | ⟨⟨d, hd', hle⟩, -⟩
      · exact .inr ⟨ih ▸ hd, hb⟩
      · exact .inr ⟨⟨d, hd', hle.trans hnow⟩, hb⟩

/-- Between two operations a level has forgotten what it should have, and nothing else. -/
theorem Retains.passage (h : n.Retains e past) (hn : n.Sound) (hs : Steps (fun _ _ => False) n n')
    (hr : n'.AtRest) (hin : n'.timers.WithinClock) : n'.Retains e past := by
  have hle := steps_precedes hn hs
  intro i hi
  rw [hle.config]
  rcases keeping_steps hn hs e .level with hkept | ⟨⟨t, ht, hdue⟩, hbare⟩
  · obtain ⟨hfirst, hdeadline⟩ := Prod.mk.injEq .. ▸ hkept
    rw [hi] at hfirst
    obtain ⟨j, hj, hji⟩ := Option.map_eq_some_iff.mp hfirst.symm
    obtain ⟨ht, ho⟩ := Prod.mk.injEq .. ▸ hji
    have hj := h j hj
    rw [hdeadline, Delivery.unforgotten_later hle.now]
    · exact hj.congr ht.symm ho.symm
    · -- What is remembered is due later.
      intro d hd
      exact hr hin _ (Timers.mem_of_deadline? (hdeadline.trans (hj.latest d hd).2))
  · obtain ⟨hblank, ho⟩ := hbare i hi
    have hhosts : n.hosts e .level := by
      rw [← hosts_congr hle.shape]
      exact hosts_iff.mpr ⟨i, hi⟩
    obtain ⟨j, hj⟩ := hosts_iff.mp hhosts
    rw [Delivery.unforgotten_eq_nil hle.now]
    · exact ⟨by simp, fun _ => hblank, ho⟩
    · intro d hd
      have hdeadline := ((h j hj).latest d hd).2
      obtain rfl := Option.some.inj (hdeadline.symm.trans ht)
      exact hdue

/-! ## Calls -/

theorem keepsOrigins_onDelta (n : Node) (c : Envelope) (i : Instance) (p : Params Int32)
    (ack : Bool) :
    (n.modify c.element .level fun j =>
      { j with deltaOrigin := some (deltaOrigin i c.src p.tid) }).KeepsOrigins
        (n.onDelta c i p ack).1 :=
  (KeepsOrigins.refl _).remember.startForClient.answerUnlessDelayed

theorem deltaOrigin_receive (hi : n.get? e .level = some i) (he : c.element = e)
    (hd : message.isDelta = true) (hk : message.tid? = some k) :
    ∃ j, (n.receive c message).1.get? e .level = some j ∧
      j.deltaOrigin = some (deltaOrigin i c.src k) := by
  subst he
  cases message with
  | levelDelta bytes ack =>
    obtain ⟨p, hp, rfl⟩ := Option.map_eq_some_iff.mp hk
    have hp : Params.transactional 4 .delta bytes = .ok p := by
      cases h : Params.transactional 4 Decoder.delta bytes with
      | error vs => simp [h, Except.toOption] at hp
      | ok q => simpa [h, Except.toOption] using hp
    have hreceive : n.receive c (.levelDelta bytes ack) = n.onDelta c i p ack := by
      simp only [receive, Message.model, hi, process, hp, withParams]
    have hsome := keepsOrigins_onDelta n c i p ack c.element .level
    rw [get?_modify_self, hi] at hsome
    obtain ⟨j, hj, ho⟩ := Option.map_eq_some_iff.mp hsome
    exact ⟨j, hreceive ▸ hj, ho⟩
  | get | set | levelMove => cases hd

theorem deltaOrigin_receive_of_ne (n : Node) (hx : c.element ≠ e ∨ message.isDelta = false) :
    ((n.receive c message).1.get? e .level).map Instance.deltaOrigin =
      (n.get? e .level).map Instance.deltaOrigin := by
  cases message with
  | levelDelta bytes ack =>
    have hne : (e, Model.level) ≠ (c.element, .level) := by
      rintro ⟨⟩
      rcases hx with hx | hx
      · exact hx rfl
      · cases hx
    simp only [receive, process, withParams]
    split
    · rfl
    next i hi =>
      split
      · rw [keepsOrigins_onDelta n c i _ ack e .level, get?_modify_of_ne hne]
      · rfl
  | get | set | levelMove => exact (KeepsOrigins.refl n).receive rfl e .level

theorem tid?_of_delta (hd : message.isDelta = true) (hout : (n.receive c message).2 = .accepted) :
    message.model = .level ∧ ∃ k, message.tid? = some k := by
  have hr := reception n c message
  generalize n.receive c message = res at hr hout
  cases message with
  | levelDelta bytes ack =>
    cases hr with
    | answered m hm => cases hm
    | stored _ _ ht => cases ht
    | @taken i k _ _ _ _ _ hk => exact ⟨rfl, k, hk⟩
    | absent | dropped | duplicate => cases hout
  | get | set | levelMove => cases hd

theorem heard_of_accepts {x : Call} (past : List Delivery) (ha : n.Accepts e .level src k x)
    (hi : n.get? e .level = some i) : ∃ c message, x = .receive c message ∧ c.element = e ∧
      c.src = src ∧ message.tid? = some k ∧
      n.heard e past (.call x) = ⟨n.now, src, k, message.isDelta, i.present⟩ :: past := by
  cases x with
  | receive c message =>
    obtain ⟨rfl, hm, rfl, hk, hout⟩ := ha
    refine ⟨c, message, rfl, rfl, rfl, hk, ?_⟩
    simp [heard, hk, hm, hout, present?, hi]
  | _ => exact ha.elim

theorem heard_of_clears {x : Call} (hc : n.Clears e .level x) : n.heard e past (.call x) = [] := by
  cases x with
  | reset => rfl
  | restore s =>
    obtain ⟨he, hm, n', hn'⟩ := hc
    simp [heard, he, hm, hn', Except.toOption]
  | _ => exact hc.elim

theorem heard_of_kept {x : Call} (ha : ∀ src k, ¬ n.Accepts e .level src k x)
    (hc : ¬ n.Clears e .level x) : n.heard e past (.call x) = past := by
  cases x with
  | receive c message =>
    rw [heard]
    split
    next k v hk _ =>
      refine if_neg fun ⟨he, hm, hout⟩ => ?_
      exact ha c.src k ⟨he, hm, rfl, hk, hout⟩
    next => rfl
  | reset => exact absurd trivial hc
  | restore s =>
    refine if_neg fun ⟨he, hm, hok⟩ => hc ⟨he, hm, ?_⟩
    cases h : n.restore s with
    | ok n' => exact ⟨n', rfl⟩
    | error err => simp [h, Except.toOption] at hok
  | _ => rfl

/-- A call that the instance does not accept and that does not make it start anew leaves alone what
it remembers. -/
theorem keeping_handle {x : Call} (hm : (n.handle x).memory e .level = n.memory e .level)
    (ha : ∀ src k, ¬ n.Accepts e .level src k x) (hc : ¬ n.Clears e .level x) :
    (n.handle x).keeping e .level = n.keeping e .level := by
  cases x with
  | receive c message =>
    refine keeping_eq hm ?_
    by_cases hout : (n.receive c message).2 = .accepted
    · refine deltaOrigin_receive_of_ne n ?_
      by_contra hx
      obtain ⟨he, hd⟩ := not_or.mp hx
      obtain ⟨hlevel, k, hk⟩ := tid?_of_delta (Bool.not_eq_false _ |>.mp hd) hout
      exact ha c.src k ⟨not_not.mp he, hlevel, rfl, hk, hout⟩
    · exact congrArg (fun n : Node => (n.get? e .level).map Instance.deltaOrigin)
        (receive_eq_self hout)
  | reset => exact absurd trivial hc
  | restore s =>
    refine keeping_eq hm ?_
    rcases restore_cases n s with ⟨-, hs⟩ | ⟨-, -, hok, hs⟩
    · rw [hs]
    · have hx : (e, Model.level) ≠ (s.image.element, s.image.model) := by
        intro hx
        obtain ⟨he, hmodel⟩ := Prod.mk.injEq .. ▸ hx
        exact hc ⟨he.symm, hmodel.symm, _, hok⟩
      rw [hs, loaded, get?_modify_of_ne hx]
      rfl
  | _ => exact keeping_eq hm ((KeepsOrigins.refl n).handle (by simp) (by simp) (by simp) e .level)

theorem IsBare.retains (h : n.IsBare e .level) : n.Retains e [] :=
  fun i hi => ⟨by simp [Delivery.unforgotten], fun _ => (h i hi).1, (h i hi).2⟩

theorem isBare_handle {x : Call} (hc : n.Clears e m x) : (n.handle x).IsBare e m := by
  intro i hi
  cases x with
  | reset =>
    rw [handle, get?_reset] at hi
    obtain ⟨j, -, rfl⟩ := Option.map_eq_some_iff.mp hi
    exact ⟨rfl, rfl⟩
  | restore s =>
    obtain ⟨rfl, rfl, n', hn'⟩ := hc
    rcases restore_cases n s with ⟨hno, -⟩ | ⟨-, -, -, hs⟩
    · exact absurd hn' (hno n')
    · rw [hs, loaded, get?_modify_self] at hi
      obtain ⟨j, -, rfl⟩ := Option.map_eq_some_iff.mp hi
      exact ⟨rfl, rfl⟩
  | _ => exact hc.elim

theorem Retains.handle (h : n.Retains e past) (hn : n.Sound) (x : Call)
    (hin : (n.handle x).timers.WithinClock) :
    (n.handle x).Retains e (n.heard e past (.call x)) := by
  have hnow := now_handle hn.typed x
  have hconfig := (handle_precedes hn.typed x).config
  -- The call leaves the memory alone, is a message that the level accepts, or makes it start anew.
  rcases recollection hn.typed x e .level with ⟨hm, ha, hc⟩ | @⟨src, k, ha, hm, hexact⟩ | ⟨hc, -⟩
  · rw [heard_of_kept ha hc]
    obtain ⟨hfirst, hdeadline⟩ := Prod.mk.injEq .. ▸ keeping_handle hm ha hc
    intro i hi
    rw [hi] at hfirst
    obtain ⟨j, hj, hji⟩ := Option.map_eq_some_iff.mp hfirst.symm
    obtain ⟨ht, ho⟩ := Prod.mk.injEq .. ▸ hji
    rw [hconfig, hnow, hdeadline]
    exact (h j hj).congr ht.symm ho.symm
  · intro i hi
    have hhosts : n.hosts e .level := by
      rw [← hosts_congr (handle_precedes hn.typed x).shape]
      exact hosts_iff.mpr ⟨i, hi⟩
    obtain ⟨j, hj⟩ := hosts_iff.mp hhosts
    obtain ⟨c, message, rfl, rfl, rfl, hk, hheard⟩ := heard_of_accepts past ha hj
    obtain ⟨ht, hd⟩ := Prod.mk.injEq .. ▸ hm
    rw [hi] at ht
    rw [hexact hin] at hd
    have hlive : n.now < n.now + n.config.dedupTimeout.toNat :=
      Nat.lt_add_of_pos_right hn.dedupTimeout_pos
    rw [hheard, hconfig, hnow, Delivery.unforgotten_cons, if_pos hlive]
    refine ⟨?_, by simp, ?_⟩
    · rintro d ⟨⟩
      exact ⟨Option.some.inj ht, hd⟩
    · rw [Delivery.kept_cons]
      cases hdelta : message.isDelta with
      | true =>
        obtain ⟨i', hi', ho⟩ := deltaOrigin_receive hj rfl hdelta hk
        obtain rfl := Option.some.inj (hi.symm.trans hi')
        rw [if_pos rfl, ho, (h j hj).deltaOrigin_eq]
      | false =>
        have ho := deltaOrigin_receive_of_ne n (c := c) (e := c.element) (.inr hdelta)
        rw [if_neg Bool.false_ne_true, ← (h j hj).origin]
        rw [handle] at hi
        rw [hi, hj] at ho
        exact Option.some.inj ho
  · rw [heard_of_clears hc]
    exact (isBare_handle hc).retains

theorem Retains.perform (h : n.Retains e past) (hn : n.Sound) (hr : n.AtRest) (op : Operation)
    (hin : (n.perform op).timers.WithinClock) :
    (n.perform op).Retains e (n.heard e past op) := by
  cases op with
  | call x => exact h.handle hn x hin
  | advance ms => exact h.passage hn (advanceTo_steps _ _ _) (hr.advanceTo hn _) hin
  | advanceTo horizon => exact h.passage hn (advanceTo_steps _ _ _) (hr.advanceTo hn _) hin

theorem retains_run (hn : n.IsBuilt) (e : UInt8) (ops : List Operation)
    (hin : (n.run ops).timers.WithinClock) : (n.run ops).Retains e (n.deliveries e ops) := by
  induction ops using List.reverseRecOn with
  | nil =>
    refine IsBare.retains fun i hi => ⟨?_, hn.holds holdsOfNew_deltaOrigin hi⟩
    rw [(hn.isFresh hi).1]
    rfl
  | append_singleton ops op ih =>
    have hs := hn.sound.run ops
    rw [run_concat] at hin ⊢
    have hbefore := (run_precedes hs [op]).withinClock hin
    rw [deliveries_concat]
    exact (ih hbefore).perform hs (hn.atRest.run hn.sound ops) op hin

/-! ## What a relative change asks for -/

theorem level_of_model {v : Value} (h : v.model = .level) : ∃ l, v = .level l := by
  cases v with
  | level l => exact ⟨l, rfl⟩
  | _ => cases h

/-- The first request that a relative change makes is for the level at its distance from where it
starts. -/
theorem requestsFor_onDelta {p : Params Int32} (ack : Bool) {o : Level}
    (hi : n.get? c.element .level = some i) (ho : deltaOrigin i c.src p.tid = .level o) :
    ∃ r later, (n.onDelta c i p ack).1.requestsFor c.element .level =
        later ++ (r, none) :: n.requestsFor c.element .level ∧
      r.value = .level (.clamp (o.toInt + p.value.toInt)) ∧ r.source = .client := by
  have hshift : (Value.level o).shift p.value.toInt = .level (.clamp (o.toInt + p.value.toInt)) :=
    rfl
  generalize hn₁ : (n.modify c.element .level fun j =>
    { j with deltaOrigin := some (deltaOrigin i c.src p.tid) }).remember c .level p.tid ack = n₁
  have hlog : n₁.requestsFor c.element .level = n.requestsFor c.element .level := by
    rw [← hn₁]
    rfl
  obtain ⟨j, hj⟩ : ∃ j, n₁.get? c.element .level = some j := by
    rw [← hn₁, get?_remember, get?_modify_self, get?_modify_self, hi]
    exact ⟨_, rfl⟩
  obtain ⟨n₂, hw, hh⟩ := start_writes (v := .level (.clamp (o.toInt + p.value.toInt)))
    (t := (n.timing c.element p.timing).1) (d := (n.timing c.element p.timing).2) (s := .client)
    isAftermath_keepsToRequests (fun _ n w => keepsToRequests_follow n c.element .level w) none hj
  have hanswered := hh.trans (works_answerUnlessDelayed _ c .level).keepsToRequests
  obtain ⟨rs, hrs, -⟩ := (hanswered c.element .level).requests
  refine ⟨admitted j ⟨c.element, .level, .level (.clamp (o.toInt + p.value.toInt)),
    (n.timing c.element p.timing).1, (n.timing c.element p.timing).2, .client⟩,
    rs.map (·, none), ?_, rfl, rfl⟩
  rw [hw.requests, hlog] at hrs
  simp only [onDelta, startForClient, ho, hshift] at hn₁ ⊢
  rw [hn₁]
  exact hrs

/-- A relative change that reaches a level is accepted, and asks first for the level at its distance
from where the first relative change of its transaction found the level. Only if the transaction
began with another message does it start from what the latest relative change before it started
from, unless there is none that is not forgotten. What is forgotten is known as long as no timer was
armed past the end of the clock. -/
theorem drag_start {bytes : List UInt8} {p : Params Int32} (ack : Bool) (hn : n.IsBuilt)
    (hn' : n' = n.run ops) (hi : n'.get? c.element .level = some i)
    (hp : Params.transactional 4 .delta bytes = .ok p) :
    let past := Delivery.unforgotten n.config.dedupTimeout.toNat n'.now (n.deliveries c.element ops)
    let drag := Delivery.current c.src p.tid past
    let before := past.drop drag.length
    (n'.receive c (.levelDelta bytes ack)).2 = .accepted ∧
      ∃ r later, (n'.receive c (.levelDelta bytes ack)).1.requestsFor c.element .level =
          later ++ (r, none) :: n'.requestsFor c.element .level ∧ r.source = .client ∧
        (n'.timers.WithinClock →
          ((∀ first, drag.getLast? = some first →
              first.isDelta = true ∨ ∀ d ∈ before, d.isDelta = false) →
            ∃ o, Delivery.start c.src p.tid past i.present = .level o ∧
              r.value = .level (.clamp (o.toInt + p.value.toInt))) ∧
          ∀ first v, drag.getLast? = some first → first.isDelta = false →
            Delivery.kept before = some v →
            ∃ o, v = .level o ∧ r.value = .level (.clamp (o.toInt + p.value.toInt))) := by
  intro past drag before
  subst hn'
  have horiginated : (n.run ops).Originated := IsReached.originated ⟨n, ops, hn, rfl⟩
  have horigin (hin : (n.run ops).timers.WithinClock) : deltaOrigin i c.src p.tid =
      (Delivery.stale c.src p.tid past).getD (Delivery.start c.src p.tid past i.present) := by
    have hretains := retains_run hn c.element ops hin i hi
    rw [(run_precedes hn.sound ops).config] at hretains
    exact hretains.deltaOrigin_eq.trans (Delivery.origin_eq ..)
  obtain ⟨o, ho⟩ := level_of_model
    (model_deltaOrigin (hn.sound.run ops).typed horiginated hi c.src p.tid)
  obtain ⟨r, later, hrequests, hvalue, hsource⟩ := requestsFor_onDelta ack hi ho
  have hreceive : (n.run ops).receive c (.levelDelta bytes ack) =
      (n.run ops).onDelta c i p ack := by
    simp only [receive, Message.model, hi, process, hp, withParams]
  rw [hreceive]
  refine ⟨rfl, r, later, hrequests, hsource, fun hin => ⟨fun hfirst => ⟨o, ?_, hvalue⟩,
    fun first v hfirst hset hkept => ⟨o, ?_, hvalue⟩⟩⟩
  · rw [← ho, horigin hin, Delivery.stale_eq_none, Option.getD_none]
    intro first hlast
    exact (hfirst first hlast).imp_right Delivery.kept_eq_none_iff.mpr
  · have hstale : Delivery.stale c.src p.tid past = some v :=
      (Delivery.stale_of_set hfirst hset).trans hkept
    rw [← ho, horigin hin, hstale, Option.getD_some]

/-- Two relative changes of one transaction, with a pause in between. -/
theorem drag_start_soloLevel :
    let c : Envelope := ⟨0, 17, 0, true⟩
    let n := soloLevel.run [.call (.receive c (.levelDelta [50, 0, 0, 0, 1] false)), .advance 100]
    ∃ r later, (n.receive c (.levelDelta [80, 0, 0, 0, 1] false)).1.requestsFor 0 .level =
      later ++ (r, none) :: n.requestsFor 0 .level ∧ r.value = .level 80 := by
  intro c n
  have hh : n.hosts 0 .level = true := by decide +kernel
  obtain ⟨i, hi⟩ := hosts_iff.mp hh
  have hparams : Params.transactional 4 Decoder.delta [80, 0, 0, 0, 1] = .ok ⟨80, 1, none⟩ := by
    decide +kernel
  have hpast : Delivery.unforgotten soloLevel.config.dedupTimeout.toNat n.now
      (soloLevel.deliveries 0
        [.call (.receive c (.levelDelta [50, 0, 0, 0, 1] false)), .advance 100]) =
      [⟨0, 17, 1, true, .level 0⟩] := by
    decide +kernel
  have hdrag := drag_start (c := c) false isBuilt_soloLevel (.refl n) hi hparams
  dsimp only [c] at hdrag
  rw [hpast] at hdrag
  obtain ⟨-, r, later, hrequests, -, hexact⟩ := hdrag
  have hin : n.timers.WithinClock := by decide +kernel
  obtain ⟨hstart, -⟩ := hexact hin
  have hfirst : ∀ first,
      (Delivery.current 17 1 [⟨0, 17, 1, true, .level 0⟩]).getLast? = some first →
      first.isDelta = true := by
    decide
  obtain ⟨o, ho, hvalue⟩ := hstart fun first h => .inl (hfirst first h)
  obtain rfl : (0 : Level) = o := Value.level.inj ho
  exact ⟨r, later, hrequests, hvalue⟩

/-- A level that is dragged to 50, set to 500 and dragged on by 10 in the transaction of the setting
goes to 10: it starts from where the first drag did, not from where the second one found it. -/
theorem drag_stale_soloLevel :
    let c : Envelope := ⟨0, 17, 0, true⟩
    let ops : List Operation := [.call (.receive c (.levelDelta [50, 0, 0, 0, 1] false)),
      .call (.receive c (.set .level [244, 1, 2] false))]
    let n := soloLevel.run ops
    let past := Delivery.unforgotten 6000 n.now (soloLevel.deliveries 0 ops)
    n.present? 0 .level = some (.level 500) ∧
      Delivery.start 17 2 past (.level 500) = .level 500 ∧
      (n.receive c (.levelDelta [10, 0, 0, 0, 2] false)).2 = .accepted ∧
      (n.receive c (.levelDelta [10, 0, 0, 0, 2] false)).1.present? 0 .level = some (.level 10) ∧
      Level.clamp (500 + 10) = 510 := by
  decide +kernel

end Node

end MeshNode
