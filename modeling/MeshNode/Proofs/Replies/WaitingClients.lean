import MeshNode.Proofs.Transition.TimerAgreement
import MeshNode.Proofs.Transactions.DeltaOrigins
import MeshNode.Proofs.Transition.SettlingOnTime

/-! # Who waits for an answer

A client that asks for an answer to a delayed request waits until the delay has passed. It is the
sender of the last message that the instance took up, and as a rule the instance is still delayed on
its very request. A move without a transition makes no request, though, and its sender waits on
whatever delays the instance; and a request that is made without a message takes the place of a
delayed one but lets its sender wait on.
-/

namespace MeshNode

theorem Message.isTransitional_of_tid? {message : Message} (h : message.tid? ≠ none) :
    message.model.isTransitional = true := by
  unfold tid? at h
  split at h <;> first | rfl | exact absurd rfl h

namespace Node

variable {n n' n₀ n₁ n₂ : Node} {e : UInt8} {m : Model} {i : Instance} {v : Value} {s : Source}
  {t d : Nat} {c : Envelope} {message : Message} {motion : Option Motion} {reply : PendingReply}
  {r : Request}

/-! ## Requests that wait -/

/-- The instance waits for the delay of a request to pass. -/
def Awaits (n : Node) (e : UInt8) (m : Model) (r : Request) : Prop :=
  ∃ i, n.get? e m = some i ∧ i.phase = .delayed ∧ i.target = r.value ∧
    i.remaining = r.transition ∧ i.delay = r.delay ∧ i.source = r.source

def unfollowed : Follow := fun n _ _ _ => n

theorem start_of_delay {follow : Follow} (hi : n.get? e m = some i)
    (hd : 0 < (admitted i ⟨e, m, v, t, d, s⟩).delay) :
    n.start follow e m v t d s motion = n.start unfollowed e m v t d s motion := by
  have hd' : 0 < if m.isTransitional then d else 0 := hd
  simp only [start, hi, program, note, if_pos hd']

theorem awaits_start (hi : n.get? e m = some i)
    (hd : 0 < (admitted i ⟨e, m, v, t, d, s⟩).delay) :
    (n.start follow e m v t d s motion).requestsFor e m =
        (admitted i ⟨e, m, v, t, d, s⟩, motion) :: n.requestsFor e m ∧
      (n.start follow e m v t d s motion).Awaits e m (admitted i ⟨e, m, v, t, d, s⟩) := by
  have hfollow (n : Node) (w : Value) : n.Tells (unfollowed n e m w) := .refl n
  rw [start_of_delay hi hd]
  obtain ⟨n₁, hw, ht⟩ := start_writes (v := v) (t := t) (d := d) (s := s) isAftermath_tells
    (fun _ => hfollow) motion hi
  refine ⟨(ht.requestsFor e m).trans hw.requests, ?_⟩
  obtain ⟨j, hj, hjc⟩ := hw.onCourse.exists_get?_of_watch (ht.watch e m)
  rw [Course.enter, if_pos hd] at hjc
  obtain ⟨-, htarget, hr, hdelay, hs, -⟩ := Course.mk.injEq .. ▸ hjc
  have hwait : 0 < j.delay := hdelay ▸ hd
  exact ⟨j, hj, by rw [Instance.phase, if_pos hwait], htarget, hr, hdelay, hs⟩

/-- With neither a delay nor bindings that come back to it, the instance waits for nothing. -/
theorem delay_start (hn : n.Typed) (hcalm : n.IsCalm) (hv : v.model = m)
    (hm : motion.isSome → m = .level) (hi : n.get? e m = some i)
    (hd : (admitted i ⟨e, m, v, t, d, s⟩).delay = 0) :
    ∃ j, (n.start follow e m v t d s motion).get? e m = some j ∧ j.delay = 0 := by
  obtain ⟨n₁, hw, hR⟩ := start_writes (v := v) (t := t) (d := d) (s := s)
    (isAftermath_calms m) (fun _ n w hn hc => calms_follow hn hc e w) motion hi
  have hvalue : (confine i v).model = m := (model_confine i v).trans hv
  have htyped := hw.typed hn ((typed_admittedCourse (hn e m i hi) hv hm).enter hvalue)
  have hcalms := hR htyped (hw.isCalm hcalm)
  obtain ⟨j, hj, hjc⟩ := hw.onCourse.exists_get?_of_watch (hcalms.watch e)
  refine ⟨j, hj, (congrArg Course.delay hjc).trans ?_⟩
  rw [hd]
  simp only [Course.enter, lt_irrefl, if_false]
  split
  · split <;> rfl
  · rfl

theorem delay_halt (h : (n.halt e m).get? e m = some i) : i.delay = 0 := by
  cases hj : n.get? e m with
  | none =>
    have hj' : (n.cancel (transitionTimer e m)).get? e m = none := hj
    simp only [halt, hj'] at h
    cases h
  | some j =>
    obtain ⟨n₁, hw, ht⟩ := halt_writes isAftermath_tells hj
    obtain ⟨k, hk, hkc⟩ := hw.onCourse.exists_get?_of_watch (ht.watch e m)
    obtain rfl := Option.some.inj (h.symm.trans hk)
    have hdelay := congrArg Course.delay hkc
    split at hdelay
    next hidle =>
      have := Instance.phase_eq_idle_iff.mp (of_decide_eq_true hidle)
      exact hdelay.trans (Nat.eq_zero_of_not_pos (not_or.mp this).1)
    next => exact hdelay

/-! ## Taking up a message -/

/-- What the request of a message makes of the instance before anybody is answered. -/
inductive Serves (n : Node) (c : Envelope) (message : Message) : Node → Prop where
  | stay (bytes : List UInt8) (ack : Bool) (h : message = .levelMove bytes ack) :
    Serves n c message n
  | halt (h : message.model = .level) : Serves n c message (n.halt c.element .level)
  | start (v : Value) (t d : Nat) (motion : Option Motion) (hv : v.model = message.model)
    (hm : motion.isSome → message.model = .level) :
    Serves n c message (n.start follow c.element message.model v t d .client motion)

/-- The transaction of a message is remembered, then its request is served, and then it is answered,
unless the change is delayed. -/
def TakesUp (n : Node) (c : Envelope) (message : Message) (n' : Node) : Prop :=
  ∃ n₀ k ack n₁, n.Works n₀ ∧ n₀.log = n.log ∧
    (n₀.remember c message.model k ack).Serves c message n₁ ∧
    n' = n₁.answerUnlessDelayed c message.model

theorem takesUp_onSet {p : Params Value} {ack : Bool} (hv : p.value.model = message.model)
    (h : (n.onSet c i p ack).2 = .accepted) : n.TakesUp c message (n.onSet c i p ack).1 := by
  unfold onSet at h ⊢
  split at h
  · cases h
  · obtain ⟨transition, delay⟩ := n.timing c.element p.timing
    refine ⟨n, p.tid, ack, _, .refl n, rfl, .start p.value transition delay none hv (by simp), ?_⟩
    dsimp only
    rw [startForClient, hv]

theorem takesUp_onDelta {p : Params Int32} {bytes : List UInt8} {ack ack' : Bool} (hn : n.Typed)
    (ho : n.Originated) (hi : n.get? c.element .level = some i) :
    n.TakesUp c (.levelDelta bytes ack') (n.onDelta c i p ack).1 := by
  have hv : ((deltaOrigin i c.src p.tid).shift p.value.toInt).model = .level :=
    (Value.model_shift _ _).trans (model_deltaOrigin hn ho hi c.src p.tid)
  have hbooks : n.Works (n.modify c.element .level fun j =>
      { j with deltaOrigin := some (deltaOrigin i c.src p.tid) }) :=
    .books c.element .level (fun _ => rfl) (fun _ => rfl) (fun _ => .inl rfl) fun _ => rfl
  unfold onDelta
  obtain ⟨transition, delay⟩ := n.timing c.element p.timing
  refine ⟨_, p.tid, ack, _, hbooks, rfl, .start _ transition delay none hv (by simp), ?_⟩
  dsimp only
  rw [startForClient, hv]
  rfl

theorem takesUp_onMove {p : Params Level} {bytes : List UInt8} {ack ack' : Bool}
    (h : (n.onMove c i p ack).2 = .accepted) :
    n.TakesUp c (.levelMove bytes ack') (n.onMove c i p ack).1 := by
  unfold onMove at h ⊢
  split at h
  · cases h
  · obtain ⟨transition, delay⟩ := n.timing c.element p.timing
    refine ⟨n, p.tid, ack, _, .refl n, rfl, ?_, rfl⟩
    split
    · exact .halt rfl
    · split
      · exact .start _ _ _ _ rfl fun _ => rfl
      · exact .stay bytes ack' rfl

theorem takesUp_receive (hn : n.Typed) (ho : n.Originated) (hk : message.tid? ≠ none)
    (h : (n.receive c message).2 = .accepted) : n.TakesUp c message (n.receive c message).1 := by
  have hset {p : Except (List Violation) (Params Value)} {ack : Bool} {i : Instance}
      (hv : ∀ a, p = .ok a → a.value.model = message.model)
      (h : (n.withParams p fun a => n.onSet c i a ack).2 = .accepted) :
      n.TakesUp c message (n.withParams p fun a => n.onSet c i a ack).1 := by
    unfold withParams at h ⊢
    split at h
    next a => exact takesUp_onSet (hv a rfl) h
    next => cases h
  unfold receive at h ⊢
  split at h
  next => cases h
  next i hi =>
    unfold process at h ⊢
    split at h
    next => exact absurd rfl hk
    next => exact hset (fun a ha => model_of_setParams (fun _ => rfl) ha) h
    next => exact hset (fun a ha => model_of_setParams (fun _ => rfl) ha) h
    next => exact hset (fun a ha => model_of_setParams (fun _ => rfl) ha) h
    next => exact absurd rfl hk
    next => exact absurd rfl hk
    next =>
      unfold withParams at h ⊢
      split at h
      next => exact takesUp_onDelta hn ho hi
      next => cases h
    next =>
      unfold withParams at h ⊢
      split at h
      next => exact takesUp_onMove h
      next => cases h

/-! ## Waiting since a message -/

theorem awaited?_eq_some : n.awaited? e m = some reply ↔
    ∃ i, n.get? e m = some i ∧ i.pendingReply = some reply :=
  Option.bind_eq_some_iff

theorem awaited_answerUnlessDelayed
    (h : (n.answerUnlessDelayed c m).awaited? c.element m = some reply) :
    n.answerUnlessDelayed c m = n ∧ ∃ i, n.get? c.element m = some i ∧ 0 < i.delay := by
  unfold answerUnlessDelayed at h ⊢
  split at h
  next hi =>
    obtain ⟨i, hi', -⟩ := awaited?_eq_some.mp h
    cases hi.symm.trans hi'
  next i hi =>
    split at h
    next hd => exact ⟨if_pos hd, i, hi, hd⟩
    next =>
      split at h
      next =>
        have hgone := (tells_sendStatus _ _ _ _ _ _).evolves.awaited _ _ _ h
        obtain ⟨j, hj, hreply⟩ := awaited?_eq_some.mp hgone
        rw [get?_modify_self, hi] at hj
        obtain rfl := Option.some.inj hj
        cases hreply
      next hnone =>
        obtain ⟨j, hj, hreply⟩ := awaited?_eq_some.mp h
        obtain rfl := Option.some.inj (hi.symm.trans hj)
        cases hnone.symm.trans hreply

/-- A message that is taken up by an instance whose sender waits has put it on a request of its own
that waits, unless it is a move that made no request. -/
theorem TakesUp.awaits (h : n.TakesUp c message n') (hn : n.Typed) (hcalm : n.IsCalm)
    (ha : n'.awaited? c.element message.model = some reply) :
    (∃ bytes ack, message = .levelMove bytes ack) ∧
        n'.requestsFor c.element message.model = n.requestsFor c.element message.model ∨
      ∃ r motion, n'.requestsFor c.element message.model =
          (r, motion) :: n.requestsFor c.element message.model ∧
        r.source = .client ∧ n'.Awaits c.element message.model r := by
  obtain ⟨n₀, k, ack, n₁, hworks, hlog, hserves, rfl⟩ := h
  obtain ⟨hsame, j, hj, hd⟩ := awaited_answerUnlessDelayed ha
  rw [hsame]
  have htyped : (n₀.remember c message.model k ack).Typed :=
    typed_remember (hworks.evolves.typed hn)
  have hcalm₀ : n₀.IsCalm := hcalm.evolves hworks.evolves
  have hcalm' : (n₀.remember c message.model k ack).IsCalm := hcalm₀
  have hr : (n₀.remember c message.model k ack).requestsFor c.element message.model =
      n.requestsFor c.element message.model := requestsFor_of_log hlog _ _
  cases hserves with
  | stay bytes ack' hm => exact .inl ⟨⟨bytes, ack', hm⟩, hr⟩
  | halt hm =>
    rw [hm] at hj
    exact absurd (delay_halt hj) (by omega)
  | start v t d motion hv hm =>
    cases hi : (n₀.remember c message.model k ack).get? c.element message.model with
    | none =>
      simp only [start, hi] at hj
      cases hj
    | some i =>
      rcases Nat.eq_zero_or_pos (admitted i ⟨c.element, message.model, v, t, d, .client⟩).delay
        with h0 | hpos
      · obtain ⟨j', hj', hd'⟩ := delay_start htyped hcalm' hv hm hi h0
        obtain rfl := Option.some.inj (hj.symm.trans hj')
        omega
      · obtain ⟨hrequests, hawaits⟩ := awaits_start hi hpos
        exact .inr ⟨_, motion, hr ▸ hrequests, rfl, hawaits⟩

/-- A sender that waits after a message sent it, or waited before while the instance took up
nothing from it. -/
theorem awaited_receive (hn : n.Typed) (ha : (n.receive c message).1.awaited? e m = some reply) :
    n.awaited? e m = some reply ∧
        ¬ (c.element = e ∧ message.model = m ∧ message.tid? ≠ none ∧
          (n.receive c message).2 = .accepted) ∨
      c.element = e ∧ message.model = m ∧ message.tid? ≠ none ∧
        (n.receive c message).2 = .accepted ∧ c.reply = reply := by
  rcases receive_evolves hn c message with ⟨he, hquiet⟩ | ⟨n₀, k, ack, hw, hk, hacc, -, he⟩
  · refine .inl ⟨he.awaited e m reply ha, ?_⟩
    rintro ⟨-, -, hk, hacc⟩
    exact hquiet.elim hk (· hacc)
  · have hremembered := he.awaited e m reply ha
    obtain ⟨i, hi, hreply⟩ := awaited?_eq_some.mp hremembered
    rw [get?_remember] at hi
    by_cases hx : (e, m) = (c.element, message.model)
    · obtain ⟨rfl, rfl⟩ := Prod.mk.injEq .. ▸ hx
      rw [get?_modify_self] at hi
      obtain ⟨j, -, rfl⟩ := Option.map_eq_some_iff.mp hi
      dsimp only at hreply
      split at hreply
      · exact .inr ⟨rfl, rfl, by simp [hk], hacc, Option.some.inj hreply⟩
      · cases hreply
    · rw [get?_modify_of_ne hx] at hi
      refine .inl ⟨hw.evolves.awaited e m reply (awaited?_eq_some.mpr ⟨i, hi, hreply⟩), ?_⟩
      rintro ⟨rfl, rfl, -⟩
      exact hx rfl

theorem tid?_of_accepted (hget : ∀ m, message ≠ .get m)
    (ht : message.model.isTransitional = true) (h : (n.receive c message).2 = .accepted) :
    message.tid? ≠ none := by
  have hr := reception n c message
  generalize n.receive c message = res at hr h
  cases hr with
  | absent | dropped | duplicate => cases h
  | answered m hm => exact absurd hm (hget m)
  | stored hk hv hstored => cases ht.symm.trans hstored
  | taken ack hi hk => simp [hk]

theorem awaited_handle {x : Call} (hn : n.Typed)
    (ha : (n.handle x).awaited? e m = some reply) :
    n.awaited? e m = some reply ∧ (m.isTransitional = true → n.Spares e m x) ∨
      ∃ c message, x = .receive c message ∧ c.element = e ∧ message.model = m ∧
        message.tid? ≠ none ∧ (n.receive c message).2 = .accepted ∧ c.reply = reply := by
  by_cases htouch : n.Touches e m x
  · cases x with
    | receive c message =>
      obtain ⟨he, hm, hget, hacc⟩ := htouch
      rcases awaited_receive hn ha with ⟨h, hnot⟩ | hfresh
      · refine .inl ⟨h, fun ht => absurd ⟨he, hm, ?_, hacc⟩ hnot⟩
        refine tid?_of_accepted ?_ (hm ▸ ht) hacc
        rintro m' rfl
        exact hget (congrArg Message.get hm)
      · exact .inr ⟨c, message, rfl, hfresh⟩
    | restore s =>
      obtain ⟨rfl, rfl, hok⟩ := htouch
      obtain ⟨i, hi, hreply⟩ := awaited?_eq_some.mp ha
      rcases restore_cases n s with ⟨hnot, -⟩ | ⟨-, -, -, h⟩
      · exact absurd hok (hnot _)
      · rw [h, loaded, get?_modify_self] at hi
        obtain ⟨j, -, rfl⟩ := Option.map_eq_some_iff.mp hi
        cases hreply
    | reset =>
      obtain ⟨i, hi, hreply⟩ := awaited?_eq_some.mp ha
      have hi : n.reset.get? e m = some i := hi
      rw [get?_reset] at hi
      obtain ⟨j, -, rfl⟩ := Option.map_eq_some_iff.mp hi
      cases hreply
    | _ => exact htouch.elim
  · refine .inl ⟨?_, fun _ => htouch⟩
    rcases handle_cases n x with h | ⟨table, h, -⟩ | rfl | ⟨s, rfl⟩ | ⟨c, message, rfl⟩
    · exact h.evolves.awaited e m reply ha
    · rw [h] at ha
      exact ha
    · exact absurd trivial htouch
    · rcases restore_cases n s with ⟨-, h⟩ | ⟨-, -, hok, h⟩
      · rwa [h] at ha
      · have hx : (e, m) ≠ (s.image.element, s.image.model) := by
          rintro hx
          obtain ⟨rfl, rfl⟩ := Prod.mk.injEq .. ▸ hx
          exact htouch ⟨rfl, rfl, hok⟩
        rw [h, awaited?, loaded, get?_modify_of_ne hx] at ha
        exact ha
    · rcases awaited_receive hn ha with ⟨h, -⟩ | ⟨he, hm, hk, hacc, -⟩
      · exact h
      · refine absurd ⟨he, hm, ?_, hacc⟩ htouch
        rintro rfl
        exact hk rfl

theorem awaited_onTransition (hn : n.Typed) (hi : n.get? e m = some i) (hd : 0 < i.delay) :
    (n.onTransition e m).awaited? e m = none := by
  have htyped := hn e m i hi
  simp only [onTransition, hi, if_pos hd, endDelay]
  obtain ⟨n₁, hn₁⟩ : ∃ n₁, n₁ = n.modify e m fun i =>
    { i with delay := 0, pendingReply := none } := ⟨_, rfl⟩
  have hnone : n₁.awaited? e m = none := by
    rw [hn₁, awaited?, get?_modify_self, hi]
    rfl
  rw [← hn₁]
  have hrun : n₁.Evolves (n₁.program follow e m i.target i.remaining 0 i.source) :=
    evolves_program evolves_follow htyped.target
  refine Option.eq_none_iff_forall_ne_some.mpr fun reply ha => ?_
  split at ha
  · have := (hrun.trans (tells_sendStatus _ e m _ _ _).evolves).awaited e m reply ha
    cases hnone.symm.trans this
  · cases hnone.symm.trans (hrun.awaited e m reply ha)

/-- The call neither touches the instance nor registers bindings but those of the helpers. -/
def SparesHelpersOnly (e : UInt8) (m : Model) (n : Node) (x : Call) : Prop :=
  n.HelpersOnly x ∧ Spares e m n x

/-- Somebody waits since a message was accepted, the last one: on the very request of it, unless it
was a move that made no request or another request was taken up since. -/
def AwaitedSince (n₀ n : Node) (e : UInt8) (m : Model) (reply : PendingReply) : Prop :=
  ∃ (n₁ n₂ : Node) (c : Envelope) (message : Message),
    Steps HelpersOnly n₀ n₁ ∧ n₁.receive c message = (n₂, .accepted) ∧
    Steps (SparesHelpersOnly e m) n₂ n ∧ c.element = e ∧ message.model = m ∧
    m.isTransitional = true ∧ c.reply = reply ∧
    (n₂.requestsFor e m = n₁.requestsFor e m → ∃ bytes ack, message = .levelMove bytes ack) ∧
    (n₂.requestsFor e m ≠ n₁.requestsFor e m → n.requestsFor e m = n₂.requestsFor e m →
      ∃ r motion, n.requestsFor e m = (r, motion) :: n₁.requestsFor e m ∧ r.source = .client ∧
        n.Awaits e m r)

theorem Awaits.congr (h : n.Awaits e m r) (hw : n'.watch e m = n.watch e m) : n'.Awaits e m r := by
  obtain ⟨i, hi, hphase, ht, hr, hd, hs⟩ := h
  obtain ⟨j, hj, hjc, -⟩ := watch_eq_some (hw.trans (watch_of_get? hi))
  obtain ⟨-, ht', hr', hd', hs', -⟩ := Course.mk.injEq .. ▸ hjc
  refine ⟨j, hj, ?_, ht'.trans ht, hr'.trans hr, hd'.trans hd, hs'.trans hs⟩
  rw [← hphase, Instance.phase, Instance.phase, hd', hr']

theorem AwaitedSince.step (h : n₀.AwaitedSince n e m reply) (hn₀ : n₀.Sound)
    (hs : m.isTransitional = true → Step (SparesHelpersOnly e m) n n')
    (ha : n'.awaited? e m = some reply) : n₀.AwaitedSince n' e m reply := by
  obtain ⟨n₁, n₂, c, message, hbefore, hreceived, hafter, he, hm, ht, hreply, hmove, hlast⟩ := h
  have hstep := hs ht
  refine ⟨n₁, n₂, c, message, hbefore, hreceived, hafter.tail hstep, he, hm, ht, hreply, hmove, ?_⟩
  intro hne hsame
  have hn₁ := hn₀.steps hbefore
  have hn₂ : n₂.Sound := by
    have : n₂ = (n₁.receive c message).1 := (congrArg Prod.fst hreceived).symm
    rw [this]
    exact hn₁.handle (.receive c message)
  have hn := hn₂.steps hafter
  have hquiet := requestsFor_between (steps_precedes hn₂ hafter) (step_precedes hn hstep) hsame
  obtain ⟨r, motion, hrequests, hsource, hawaits⟩ := hlast hne hquiet
  refine ⟨r, motion, (hsame.trans hquiet.symm).trans hrequests, hsource, ?_⟩
  have hapart : Step (Spares e m) n n' := hstep.mono fun _ _ => And.right
  rcases step_spares hapart (hsame.trans hquiet.symm) with
    ⟨hw, -⟩ | ⟨horizon, ts, hpop, rfl⟩
  · exact hawaits.congr hw
  · -- Whoever waited was answered when the delay had passed.
    obtain ⟨i, hi, hphase, -⟩ := hawaits
    have hd : 0 < i.delay := by
      by_contra hd
      rw [Instance.phase, if_neg hd] at hphase
      split at hphase <;> cases hphase
    have hnone := awaited_onTransition (n := { n with timers := ts }) (hn.popped hpop).typed hi hd
    cases hnone.symm.trans ha

theorem awaited_step (hn₀ : n₀.Sound) (hsteps : Steps HelpersOnly n₀ n) (hsteady : n.Steady)
    (ho : n.Originated) (ih : ∀ reply, n.awaited? e m = some reply → n₀.AwaitedSince n e m reply)
    (hs : Step HelpersOnly n n') (ha : n'.awaited? e m = some reply) :
    n₀.AwaitedSince n' e m reply := by
  have hn := hn₀.steps hsteps
  cases hs with
  | call x hx =>
    -- The sender waited before and is spared, or it is the one of the message of this very call.
    rcases awaited_handle hn.typed ha with ⟨hbefore, hspares⟩ |
      ⟨c, message, rfl, rfl, rfl, hk, hacc, rfl⟩
    · exact (ih reply hbefore).step hn₀ (fun ht => .call x ⟨hx, hspares ht⟩) ha
    · have hreceived : n.receive c message = ((n.receive c message).1, .accepted) :=
        Prod.ext rfl hacc
      have htaken := (takesUp_receive hn.typed ho hk hacc).awaits hn.typed hsteady.isCalm ha
      refine ⟨n, _, c, message, hsteps, hreceived, .refl, rfl, rfl,
        Message.isTransitional_of_tid? hk, rfl, fun hsame => ?_, fun hne _ => ?_⟩
      · rcases htaken with ⟨hmove, -⟩ | ⟨r, motion, hrequests, -⟩
        · exact hmove
        · have hlen := congrArg List.length (hrequests.symm.trans hsame)
          rw [List.length_cons] at hlen
          omega
      · exact htaken.resolve_left fun h => hne h.2
  | @expiry horizon timer ts hpop =>
    refine (ih reply ?_).step hn₀ (fun _ => .expiry hpop) ha
    have htyped := (hn.toSane.popped hpop).typed
    obtain ⟨e', m', rfl | rfl⟩ := timer_cases timer
    · exact (evolves_onTransition htyped e' m').awaited e m reply ha
    · have hkept : ({ n with timers := ts } : Node).awaited? e m = some reply := by
        obtain ⟨i, hi, hreply⟩ := awaited?_eq_some.mp ha
        rcases get?_modify_eq_some hi with hi | ⟨rfl, rfl, j, hj, rfl⟩
        · exact awaited?_eq_some.mpr ⟨i, hi, hreply⟩
        · exact awaited?_eq_some.mpr ⟨j, hj, hreply⟩
      exact hkept
  | passage hpop => exact (ih reply ha).step hn₀ (fun _ => .passage hpop) ha

theorem holdsOfNew_pendingReply : HoldsOfNew fun _ i => i.pendingReply = none where
  new _ _ _ := rfl
  value _ _ h := h
  saved _ _ h := h

/-- Whoever waits for an answer of an instance sent the last message that it took up, and is
answered when the delay of the instance has passed. The instance waits on the very request of the
message, unless that was a move that made no request or another request was taken up since. -/
theorem awaited_since {ops : List Operation} (hn₀ : n₀.IsBuilt)
    (hops : ∀ link rule, .call (.bind link rule) ∉ ops) (hn : n = n₀.run ops)
    (ha : n.awaited? e m = some reply) :
    n₀.AwaitedSince n e m reply ∧ ∀ i, n.get? e m = some i → 0 < i.delay →
      (n.onTransition e m).awaited? e m = none ∧
        ∃ n' : Node,
          n.onTransition e m = n'.sendStatus e m reply.dst reply.appKey reply.unicast := by
  subst hn
  have hsteps := run_steps (admits_helpersOnly hops n₀)
  have horiginated : n₀.Originated := by
    intro e m i hi v hv
    rw [hn₀.holds holdsOfNew_deltaOrigin hi] at hv
    cases hv
  constructor
  · generalize n₀.run ops = n at hsteps ha
    induction hsteps generalizing reply with
    | refl =>
      obtain ⟨i, hi, hreply⟩ := awaited?_eq_some.mp ha
      cases (hn₀.holds holdsOfNew_pendingReply hi).symm.trans hreply
    | tail hsteps hs ih =>
      exact awaited_step hn₀.sound hsteps (hn₀.steady.steps hn₀.sound hsteps)
        (horiginated.steps hn₀.sound hsteps) (fun _ h => ih h) hs ha
  · intro i hi hd
    refine ⟨awaited_onTransition (hn₀.sound.run ops).typed hi hd, ?_⟩
    obtain ⟨j, hj, hreply⟩ := awaited?_eq_some.mp ha
    obtain rfl := Option.some.inj (hi.symm.trans hj)
    simp only [onTransition, hi, if_pos hd, endDelay, hreply]
    exact ⟨_, rfl⟩

theorem awaited_since_soloLevel :
    ∃ n i, n = soloLevel.run [.call (.bindLightnessToLevel 0 0),
        .call (.receive ⟨0, 4609, 0, true⟩ (.set .level [5, 0, 1, 2, 10] true)), .advance 20] ∧
      n.get? 0 .level = some i ∧ 0 < i.delay ∧ soloLevel.AwaitedSince n 0 .level ⟨4609, 0, true⟩ ∧
      (n.onTransition 0 .level).awaited? 0 .level = none := by
  obtain ⟨n, hn⟩ : ∃ n, n = soloLevel.run [.call (.bindLightnessToLevel 0 0),
    .call (.receive ⟨0, 4609, 0, true⟩ (.set .level [5, 0, 1, 2, 10] true)), .advance 20] :=
    ⟨_, rfl⟩
  have hawaited : n.awaited? 0 .level = some ⟨4609, 0, true⟩ := by
    rw [hn]
    decide +kernel
  have hdelay : ∀ i ∈ n.get? 0 .level, 0 < i.delay := by
    rw [hn]
    decide +kernel
  obtain ⟨i, hi, -⟩ := awaited?_eq_some.mp hawaited
  obtain ⟨hsince, hend⟩ := awaited_since isBuilt_soloLevel (by simp) hn hawaited
  exact ⟨n, i, hn, hi, hdelay i hi, hsince, (hend i hi (hdelay i hi)).1⟩

/-- A client waits on after the application has set the level, and is answered when the delay of a
later request of the application has passed. -/
theorem stale_soloLevel :
    ∃ n₀ n n' : Node, n₀.IsBuilt ∧
      n = n₀.run [.call (.receive ⟨0, 4609, 0, true⟩ (.set .level [5, 0, 1, 2, 10] true)),
        .call (.request (.application 0 (.level 7) 0 0))] ∧
      (n.get? 0 .level).map Instance.phase = some .idle ∧
      n.awaited? 0 .level = some ⟨4609, 0, true⟩ ∧
      n' = n.run [.call (.request (.application 0 (.level 9) 1000 20)), .advance 100] ∧
      .out (.sent ⟨0, .level, 4609, 0, Reply.defaultTtl, [7, 0, 9, 0, 10], 20, 50⟩) ∈ n'.log :=
  ⟨{ soloLevel with isConnected := true }, _, _, ⟨⟨{}, [.single .level]⟩, 0, true, rfl⟩, rfl,
    by decide +kernel, by decide +kernel, rfl, by decide +kernel⟩

end Node

end MeshNode
