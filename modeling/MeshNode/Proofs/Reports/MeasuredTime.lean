import Mathlib.Data.List.Induction
import MeshNode.Proofs.Transition.TimerAgreement
import MeshNode.Proofs.Reports.RemainingTime
import MeshNode.Proofs.Transition.Superseding

/-! # The time left is measured

Between the calls of a node whose bindings come from the helpers, whatever an instance takes up
settles it. A busy instance that does not move is therefore on the trip of the last request that a
call made of it, and the time that it reports is what is left of that trip.
-/

namespace MeshNode.Node

variable {n n' n₁ : Node} {e e' : UInt8} {m m' : Model} {i : Instance} {v w : Value} {s : Source}
  {t d : Nat} {p : Trip} {x : Call} {r : Request} {timer : Timer} {ts : Timers} {horizon : Nat}

/-! ## The timer of one instance -/

/-- One instance took up nothing, and each other one neither, or it has settled. -/
structure Proceeds (n n' : Node) (e : UInt8) (m : Model) : Prop where
  requests : n'.requestsFor e m = n.requestsFor e m
  others : ∀ e' m', (e', m') ≠ (e, m) →
    (n'.requestsFor e' m' = n.requestsFor e' m' ∧ n'.watch e' m' = n.watch e' m') ∨
      ∃ (c : Course) (w : Value), n'.watch e' m' = (some (c.finish w), none)

theorem Proceeds.refl (n : Node) (e : UInt8) (m : Model) : n.Proceeds n e m :=
  ⟨rfl, fun _ _ _ => .inl ⟨rfl, rfl⟩⟩

theorem Proceeds.trans (h : n.Proceeds n₁ e m) (h' : n₁.Proceeds n' e m) : n.Proceeds n' e m where
  requests := h'.requests.trans h.requests
  others e' m' hx := by
    rcases h'.others e' m' hx with ⟨hr', hw'⟩ | hw'
    · rcases h.others e' m' hx with ⟨hr, hw⟩ | ⟨c, w, hw⟩
      · exact .inl ⟨hr'.trans hr, hw'.trans hw⟩
      · exact .inr ⟨c, w, hw'.trans hw⟩
    · exact .inr hw'

theorem Calms.proceeds (h : n.Calms m n') (e : UInt8) : n.Proceeds n' e m where
  requests := (h.same e).1
  others e' m' _ := (h e' m').imp_right And.right

theorem Writes.proceeds {c : Course} {d? : Option Nat} (hw : n.Writes n₁ e m [] c d?)
    (hn : n.Typed) (hcalm : n.IsCalm) (hct : c.Typed m)
    (hR : n₁.Typed → n₁.IsCalm → n₁.Calms m n') : n.Proceeds n' e m := by
  have hwrites : n.Proceeds n₁ e m := ⟨hw.requests, fun e' m' hx => .inl (hw.others e' m' hx)⟩
  exact hwrites.trans ((hR (hw.typed hn hct) (hw.isCalm hcalm)).proceeds e)

section Timer

variable (hn : n.Typed) (hcalm : n.IsCalm) (hi : n.get? e m = some i)
include hn hcalm hi

theorem proceeds_settle (hw : w.model = m) : n.Proceeds (n.settle follow e m w s) e m := by
  obtain ⟨n₁, hwrites, hR⟩ := settle_writes (w := w) (s := s) (isAftermath_calms m)
    (fun _ _ n hn hc => calms_follow hn hc e w) hi
  exact hwrites.proceeds hn hcalm (Course.typed_finish _ hw) hR

theorem proceeds_program (hw : w.model = m) :
    n.Proceeds ((n.program follow e m w t d s).publish e m) e m := by
  obtain ⟨n₁, hwrites, hR⟩ := program_writes (w := w) (t := t) (d := d) (s := s)
    (isAftermath_calms m) (fun _ _ n hn hc => calms_follow hn hc e w) hi
  refine hwrites.proceeds hn hcalm ((hn e m i hi).course.enter hw) fun ht hc => ?_
  exact (hR ht hc).tells (tells_publish _ e m)

theorem proceeds_endDelay : n.Proceeds (n.endDelay e m i) e m := by
  have ht := hn e m i hi
  obtain ⟨n₁, hwrites, hR⟩ := endDelay_writes (isAftermath_calms m)
    (fun _ n hn hc => calms_follow hn hc e _) hi
  have hct : Course.Typed m { i.course with delay := 0 } :=
    ⟨ht.present, ht.target, ht.stepping, ht.motion⟩
  exact hwrites.proceeds hn hcalm (hct.enter ht.target) hR

theorem proceeds_stepOn : n.Proceeds (n.stepOn e m i) e m := by
  have ht := hn e m i hi
  obtain ⟨n₁, hwrites, hR⟩ := stepped_writes (isAftermath_calms m)
    (fun _ n v hn hc => calms_follow hn hc e v) hi
  have he := evolves_stepped hn hi
  have hcalm' := hcalm.evolves he
  obtain ⟨j, hj⟩ := hosts_iff.mp ((he.hosts e m).trans (hosts_iff.mpr ⟨i, hi⟩))
  refine (hwrites.proceeds hn hcalm ht.course.stepped hR).trans ?_
  rw [stepOn_eq]
  split
  · exact proceeds_settle (he.typed hn) hcalm' hj ht.target
  · exact proceeds_program (he.typed hn) hcalm' hj ht.target

theorem proceeds_moved (motion : Motion) :
    n.Proceeds (((n.moved e m i motion).program follow e m i.target motion.interval 0
      i.source).publish e m) e m := by
  have ht := hn e m i hi
  obtain ⟨n₁, hwrites, hR⟩ := visit_writes (v := i.present.shift motion.step) (s := i.source)
    (isAftermath_calms m) (fun _ n hn hc => calms_follow hn hc e _) hi
  have he := evolves_moved hn hi motion
  obtain ⟨j, hj⟩ := hosts_iff.mp ((he.hosts e m).trans (hosts_iff.mpr ⟨i, hi⟩))
  have hct : Course.Typed m { i.course with present := i.present.shift motion.step } :=
    ⟨by rw [Value.model_shift, ht.present], ht.target, ht.stepping, ht.motion⟩
  exact (hwrites.proceeds hn hcalm hct hR).trans
    (proceeds_program (he.typed hn) (hcalm.evolves he) hj ht.target)

omit hi in
theorem proceeds_onTransition (e : UInt8) (m : Model) :
    n.Proceeds (n.onTransition e m) e m := by
  have h := n.onward e m
  generalize n.onTransition e m = n' at h ⊢
  cases h with
  | absent | idle => exact .refl n e m
  | begin hi => exact proceeds_endDelay hn hcalm hi
  | arrive hi => exact proceeds_settle hn hcalm hi (hn e m _ hi).target
  | move hi => exact proceeds_moved hn hcalm hi _
  | step hi => exact proceeds_stepOn hn hcalm hi

end Timer

/-! ## The course of time -/

theorem movesOrSettled_of_watch {c : Course} {d? : Option Nat}
    (hw : n.watch e m = (some (c.finish w), d?)) :
    n.MovesOrSettled e m :=
  ⟨_, congrArg Prod.fst hw, movingOrSettled_finish c w⟩

/-- As time passes an instance takes up nothing, or it moves afterwards or has settled. -/
theorem Steady.quiet_or_movesOrSettled (hs : n.Steady)
    (hstep : Step (fun _ _ => False) n n') (e : UInt8)
    (m : Model) : n'.requestsFor e m = n.requestsFor e m ∨ n'.MovesOrSettled e m := by
  cases hstep with
  | call _ hx => cases hx
  | @expiry horizon timer ts hp =>
    obtain ⟨e', m', rfl | rfl⟩ := timer_cases timer
    · rw [onTimer_transition]
      have hproceeds := proceeds_onTransition (n := { n with timers := ts }) hs.typed
        hs.isCalm e' m'
      by_cases hx : (e, m) = (e', m')
      · obtain ⟨rfl, rfl⟩ := Prod.mk.injEq .. ▸ hx
        exact .inl hproceeds.requests
      · rcases hproceeds.others e m hx with ⟨hr, -⟩ | ⟨c, w, hw⟩
        · exact .inl hr
        · exact .inr (movesOrSettled_of_watch hw)
    · exact .inl rfl
  | passage hp => exact .inl rfl

theorem MovesOrSettled.passage_step (h : n.MovesOrSettled e m) (hs : n.Steady)
    (hstep : Step (fun _ _ => False) n n') : n'.MovesOrSettled e m := by
  rcases hs.quiet_or_movesOrSettled hstep e m with hr | hroam
  · exact movesOrSettled_step (hstep.mono fun _ _ => False.elim) hr h
  · exact hroam

theorem Steady.passage (hs : n.Steady) (hn : n.Sound) (h : Steps (fun _ _ => False) n n') :
    n'.Steady :=
  hs.steps hn (steps_mono (fun _ _ => False.elim) h)

theorem MovesOrSettled.passage (h : n.MovesOrSettled e m) (hs : n.Steady) (hn : n.Sound)
    (hsteps : Steps (fun _ _ => False) n n') : n'.MovesOrSettled e m := by
  induction hsteps with
  | refl => exact h
  | tail hsteps hstep ih =>
    exact ih.passage_step (hs.passage hn hsteps) hstep

theorem Travels.passage (h : n.Travels e m p) (hs : n.Steady) (hn : n.Sound)
    (hp : p.interval = n.config.stepInterval.toNat) (hsteps : Steps (fun _ _ => False) n n') :
    n'.requestsFor e m = n.requestsFor e m ∧ n'.Travels e m p ∨ n'.MovesOrSettled e m := by
  induction hsteps with
  | refl => exact .inl ⟨rfl, h⟩
  | @tail n₁ n₂ hsteps hstep ih =>
    have hs₁ := hs.passage hn hsteps
    have hn₁ := hn.steps hsteps
    rcases ih with ⟨hr₁, ht₁⟩ | hroam
    · rcases hs₁.quiet_or_movesOrSettled hstep e m with hr | hroam
      · refine .inl ⟨hr.trans hr₁, ?_⟩
        refine travels_step hn₁ (hstep.mono fun _ _ => False.elim) hr (hp.trans ?_) ht₁
        rw [(steps_precedes hn hsteps).config]
      · exact .inr hroam
    · exact .inr (hroam.passage_step hs₁ hstep)

/-! ## Calls -/

theorem movesOrSettled_of_get? (hi : n.get? e m = some i)
    (hidle : ¬ (0 < i.delay ∨ 0 < i.remaining)) :
    n.MovesOrSettled e m :=
  ⟨i.course, congrArg (Option.map Instance.course) hi, .inr hidle⟩

theorem Moves.watch_or_movesOrSettled {n₁ : Node} (h : n.Moves e n₁) (hh : n₁.KeepsToRequests n')
    (hi : n.get? e .level = some i)
    (hr : n'.requestsFor e .level = n.requestsFor e .level) :
    n'.watch e .level = n.watch e .level ∨ n'.MovesOrSettled e .level := by
  cases h with
  | stay => exact .inl ((hh e .level).watch hr)
  | halt =>
    obtain ⟨n₂, hw, hh'⟩ := halt_writes isAftermath_keepsToRequests hi
    refine .inr (hw.movesOrSettled (hh'.trans hh) (hr.trans hw.requests.symm) ?_)
    split
    next hidle => exact .inr (Instance.phase_eq_idle_iff.mp (of_decide_eq_true hidle))
    next => exact movingOrSettled_finish ..
  | start bound t d k _ =>
    obtain ⟨n₂, hw, hh'⟩ := start_writes (v := .level bound) (t := t) (d := d) (s := .client)
      isAftermath_keepsToRequests (fun _ n w => keepsToRequests_follow n e .level w) (some k) hi
    have hlen := ((hh'.trans hh) e .level).suffix.length_le
    rw [hr, hw.requests, List.length_append, List.length_singleton] at hlen
    omega

theorem watch_or_movesOrSettled_receive {c : Envelope} {message : Message}
    (hm : message.model.isTransitional = true) (hi : n.get? c.element message.model = some i)
    (hr : (n.receive c message).1.requestsFor c.element message.model =
      n.requestsFor c.element message.model) :
    (n.receive c message).1.watch c.element message.model = n.watch c.element message.model ∨
      (n.receive c message).1.MovesOrSettled c.element message.model := by
  have h := reception n c message
  generalize n.receive c message = res at h hr ⊢
  cases h with
  | absent | dropped | duplicate => exact .inl rfl
  | answered m hm h => exact .inl (h.watch _ _)
  | stored hk hv ht => simp [hm] at ht
  | @taken j k n₀ n₁ n' ack hj hk hrep h₀ hlog h₁ hworks =>
    have hlog' (e : UInt8) (m : Model) :
        (n₀.remember c message.model k ack).requestsFor e m = n.requestsFor e m :=
      requestsFor_of_log hlog e m
    have hwatch (e : UInt8) (m : Model) :
        (n₀.remember c message.model k ack).watch e m = n.watch e m :=
      (watch_remember e m).trans ((h₀.keepsToRequests e m).watch (requestsFor_of_log hlog e m))
    rcases h₁ with rfl | ⟨⟨bytes, ack', rfl⟩, hmoves⟩
    · exact .inl (((hworks.keepsToRequests _ _).watch (hr.trans (hlog' _ _).symm)).trans
        (hwatch _ _))
    · obtain ⟨j', hj', -⟩ := watch_eq_some ((hwatch _ _).trans (watch_of_get? hi))
      refine (hmoves.watch_or_movesOrSettled hworks.keepsToRequests hj'
        (hr.trans (hlog' _ _).symm)).imp_left ?_
      exact fun hw => hw.trans (hwatch _ _)

theorem watch_or_movesOrSettled_handle (hm : m.isTransitional = true) (hi : n.get? e m = some i)
    (hr : (n.handle x).requestsFor e m = n.requestsFor e m) :
    (n.handle x).watch e m = n.watch e m ∨ (n.handle x).MovesOrSettled e m := by
  by_cases hx : n.Touches e m x
  · cases x with
    | receive c message =>
      obtain ⟨rfl, rfl, -⟩ := hx
      exact watch_or_movesOrSettled_receive hm hi hr
    | reset =>
      have hreset : n.reset.get? e m = some i.reset := by rw [get?_reset, hi, Option.map_some]
      exact .inr (movesOrSettled_of_get? hreset (by simp [Instance.reset]))
    | restore s =>
      obtain ⟨rfl, rfl, hok⟩ := hx
      have hload : n.handle (.restore s) = n.loaded s.image := by
        simp [handle, hok, Except.toOption]
      have hget : (n.loaded s.image).get? s.image.element s.image.model =
          some (i.load s.image) := by
        rw [loaded, get?_modify_self]
        exact congrArg (Option.map _) hi
      rw [hload]
      exact .inr (movesOrSettled_of_get? hget (by simp [Instance.load, Instance.reset]))
    | _ => exact hx.elim
  · exact .inl ((keepsToRequestsAt_handle hx).watch hr)

/-- A call that an instance takes up something from sends it on the trip of the last request of it,
or it moves afterwards or has settled. -/
theorem travels_or_movesOrSettled_handle (hn : n.Typed)
    (hne : (n.handle x).requestsFor e m ≠ n.requestsFor e m) :
    (∃ r rest origin, (n.handle x).requestsFor e m = (r, none) :: rest ∧
      (n.handle x).Travels e m ((n.handle x).trip r origin)) ∨ (n.handle x).MovesOrSettled e m := by
  cases hhead : (n.handle x).requestsFor e m with
  | nil =>
    have hsuffix := requestsFor_suffix (handle_precedes hn x).log e m
    rw [hhead, List.suffix_nil] at hsuffix
    exact absurd (hhead.trans hsuffix.symm) hne
  | cons q rest =>
    obtain ⟨r, _ | motion⟩ := q
    · obtain ⟨origin, ht⟩ := (attends_handle n x e m).travels hhead hne
      exact .inl ⟨r, rest, origin, rfl, ht⟩
    · exact .inr (movesOrSettled_handle hhead hne)

/-! ## Runs -/

variable {ops : List Operation} {op : Operation}

/-- The last request that an instance took up in a run is one that a call made it take up at a
time. -/
def TakenUpAt (n : Node) (ops : List Operation) (e : UInt8) (m : Model) (r : Request) (t : Nat) :
    Prop :=
  ∃ pre x post rest, ops = pre ++ .call x :: post ∧ (n.run pre).now = t ∧
    (n.run pre).requestsFor e m ≠ ((n.run pre).handle x).requestsFor e m ∧
    ((n.run pre).handle x).requestsFor e m = (r, none) :: rest ∧
    (n.run ops).requestsFor e m = (r, none) :: rest

theorem TakenUpAt.concat (h : n.TakenUpAt ops e m r t)
    (hr : ((n.run ops).perform op).requestsFor e m = (n.run ops).requestsFor e m) :
    n.TakenUpAt (ops ++ [op]) e m r t := by
  obtain ⟨pre, x, post, rest, rfl, ht, hne, htaken, hlast⟩ := h
  refine ⟨pre, x, post ++ [op], rest, by simp, ht, hne, htaken, ?_⟩
  rw [run_concat]
  exact hr.trans hlast

/-- The instance moves or has settled, or it is on the trip of the last request that it took up in a
run. -/
def Underway (n : Node) (ops : List Operation) (e : UInt8) (m : Model) : Prop :=
  (n.run ops).MovesOrSettled e m ∨ ∃ r t origin, n.TakenUpAt ops e m r t ∧
    (n.run ops).Travels e m ⟨r, t, origin, n.config.stepInterval.toNat⟩

theorem Underway.passage (h : n.Underway ops e m) (hn : n.IsBuilt) (hs : (n.run ops).Steady)
    (hop : ∀ x, op ≠ .call x) : n.Underway (ops ++ [op]) e m := by
  have hsound := hn.sound.run ops
  have hsteps := passage_steps (n := n.run ops) hop
  rw [Underway, run_concat]
  rcases h with hroam | ⟨r, t, origin, htaken, ht⟩
  · exact .inl (hroam.passage hs hsound hsteps)
  · have hp := congrArg (fun c => c.stepInterval.toNat) (run_precedes hn.sound ops).config.symm
    rcases ht.passage hs hsound hp hsteps with ⟨hr, ht'⟩ | hroam
    · exact .inr ⟨r, t, origin, htaken.concat hr, ht'⟩
    · exact .inl hroam

theorem Underway.call (h : n.Underway ops e m) (hn : n.IsBuilt) (hm : m.isTransitional = true)
    (hi : (n.run ops).get? e m = some i) (x : Call) : n.Underway (ops ++ [.call x]) e m := by
  have hsound := hn.sound.run ops
  have hnow := now_handle hsound.typed x
  have harmings := (handle_precedes hsound.typed x).armings
  rw [Underway, run_concat]
  change ((n.run ops).handle x).MovesOrSettled e m ∨ ∃ r t origin, _ ∧
    ((n.run ops).handle x).Travels e m _
  by_cases hr : ((n.run ops).handle x).requestsFor e m = (n.run ops).requestsFor e m
  · rcases watch_or_movesOrSettled_handle hm hi hr with hw | hroam
    · rcases h with hroam | ⟨r, t, origin, htaken, ht⟩
      · exact .inl (hroam.congr hw)
      · exact .inr ⟨r, t, origin, htaken.concat hr, ht.congr hw hnow.ge harmings⟩
    · exact .inl hroam
  · rcases travels_or_movesOrSettled_handle hsound.typed hr with
      ⟨r, rest, origin, hrequests, ht⟩ | hroam
    · have hconfig : ((n.run ops).handle x).config = n.config :=
        (handle_precedes hsound.typed x).config.trans (run_precedes hn.sound ops).config
      rw [trip, hconfig, hnow] at ht
      refine .inr ⟨r, _, origin, ⟨ops, x, [], rest, rfl, rfl, Ne.symm hr, hrequests, ?_⟩, ht⟩
      rw [run_concat]
      exact hrequests
    · exact .inl hroam

theorem underway_run (hn : n.IsBuilt) (hops : ∀ link rule, .call (.bind link rule) ∉ ops)
    (hm : m.isTransitional = true) (hh : n.hosts e m = true) : n.Underway ops e m := by
  induction ops using List.reverseRecOn with
  | nil =>
    obtain ⟨i, hi⟩ := hosts_iff.mp hh
    obtain ⟨-, v, -, hc⟩ := hn.isFresh hi
    obtain ⟨-, -, hr, hd, -⟩ := Course.mk.injEq .. ▸ hc
    exact .inl (movesOrSettled_of_get? hi (by omega))
  | append_singleton ops op ih =>
    have hops' : ∀ link rule, .call (.bind link rule) ∉ ops := fun link rule h =>
      hops link rule (List.mem_append_left _ h)
    have hunderway := ih hops'
    cases op with
    | call x =>
      have hhosts := hosts_congr (run_precedes hn.sound ops).shape e m
      obtain ⟨i, hi⟩ := hosts_iff.mp (hhosts.trans hh)
      exact hunderway.call hn hm hi x
    | advance ms => exact hunderway.passage hn (hn.steady_run hops') (by simp)
    | advanceTo horizon => exact hunderway.passage hn (hn.steady_run hops') (by simp)

/-! ## Reports -/

theorem report?_of_busy (hi : n.get? e m = some i) (hbusy : i.phase ≠ .idle) :
    n.report? e m = some ⟨i.present, some i.target, some (n.reportedTime e m i)⟩ := by
  have hbusy : ¬ (i.remaining = 0 ∧ i.delay = 0) := by
    rw [ne_eq, Instance.phase_eq_idle_iff] at hbusy
    omega
  simp only [report?, hi, Option.map_some, if_neg hbusy]

/-- During the delay of a trip its whole transition is left, and afterwards the time up to its
end. -/
theorem Travels.leftAt_eq (h : n.Travels e m p) (hrest : n.AtRest)
    (hp : p.interval = n.config.stepInterval.toNat) (hpos : 0 < p.interval)
    (hi : n.get? e m = some i) :
    (i.phase = .delayed → n.leftAt e m = p.request.transition) ∧
      (i.phase = .transitioning → n.timers.WithinClock → n.now + n.leftAt e m = p.arrival) := by
  obtain ⟨leg, edge, since, hleg, hcourse, hsince, hexact⟩ := h
  obtain ⟨j, hj, hic⟩ := hcourse.exists_get?
  obtain rfl := Option.some.inj (hi.symm.trans hj)
  obtain ⟨-, -, hr, hdelay, -⟩ := Course.mk.injEq .. ▸ hic
  rw [Trip.phase_of_course hleg hpos hic]
  simp only [leftAt, hi]
  cases leg with
  | waiting =>
    have hwait : 0 < i.delay := hdelay ▸ hleg
    refine ⟨fun _ => ?_, by simp [Trip.Leg.phase]⟩
    rw [if_pos hwait, hr]
  | running k =>
    refine ⟨by simp [Trip.Leg.phase], fun _ hin => ?_⟩
    have hgo : ¬ 0 < i.delay := by simp [hdelay]
    have hrun : 0 < i.remaining := hr ▸ Trip.remaining_running hleg hpos
    have hd : n.timers.deadline? (transitionTimer e m) = p.deadline? (.running k) := by
      rw [Trip.deadline?_eq hleg, ← hexact hin]
      exact hcourse.exact hin
    -- No timer is due at rest, so what the timer has left is not cut off at zero.
    have hlate := hrest hin _ (Timers.mem_of_deadline? hd)
    rw [if_neg hgo, if_pos hrun, timeLeft_eq hic hp, hd, Trip.deadline?, Trip.next]
    simp only [Option.map_some, Option.getD_some] at hlate ⊢
    split at hlate
    next hk =>
      have hsteps := Trip.steps_mul_le (k + 1) hk
      rw [if_pos hk, if_pos hk]
      simp only [Trip.course, Trip.arrival, Nat.add_mul, Nat.one_mul] at hsteps hlate ⊢
      omega
    next hk =>
      rw [if_neg hk, if_neg hk]
      simp only [Trip.course]
      omega
  | arrived => exact ⟨by simp [Trip.Leg.phase], by simp [Trip.Leg.phase]⟩

/-- A busy instance that does not move reports the time that is left of the last request that it
took up: the whole transition while that is delayed, and then the time up to the end of it. On the
wire the time is rounded down to steps of the resolution that it takes, or it is unknown if it is
too long for any. -/
theorem remaining_measured (hn : n.IsBuilt) (hops : ∀ link rule, .call (.bind link rule) ∉ ops)
    (hn' : n' = n.run ops) (hm : m.isTransitional = true) (hi : n'.get? e m = some i)
    (hbusy : i.phase ≠ .idle) (hstill : i.isMoving = false) :
    ∃ r t left, n.TakenUpAt ops e m r t ∧
      n'.report? e m = some ⟨i.present, some r.value, some (.ofMillis left)⟩ ∧
      (i.phase = .delayed → left = r.transition) ∧
      (i.phase = .transitioning → n'.timers.WithinClock →
        n'.now + left = t + 5 * r.delay + r.transition) ∧
      ∀ ms, (ms ≤ 37200000 → ∃ read, (TransitionTime.ofMillis ms).millis? = some read ∧
          read ≤ ms ∧ ms < read + (TransitionTime.ofMillis ms).resolution.stepMs) ∧
        (37200000 < ms → TransitionTime.ofMillis ms = .unknown) := by
  subst hn'
  have hhosts := (hosts_congr (run_precedes hn.sound ops).shape e m).symm
  have hunderway := underway_run hn hops hm (hhosts.trans (hosts_iff.mpr ⟨i, hi⟩))
  have hrest := hn.atRest.run hn.sound ops
  have hconfig := (run_precedes hn.sound ops).config
  rcases hunderway with ⟨c, hc, hwander⟩ | ⟨r, t, origin, htaken, ht⟩
  · -- The instance neither moves nor has settled.
    obtain ⟨j, hj, rfl⟩ := Option.map_eq_some_iff.mp hc
    obtain rfl := Option.some.inj (hi.symm.trans hj)
    rcases hwander with hmoves | hidle
    · exact absurd hmoves (by simpa [Instance.isMoving, Instance.course] using hstill)
    · exact absurd (Instance.phase_eq_idle_iff.mpr hidle) hbusy
  · have hpos := hn.sound.stepInterval_pos
    obtain ⟨j, hj, htarget, -⟩ := ht.target hpos
    obtain rfl := Option.some.inj (hi.symm.trans hj)
    have hnidle : ¬ (i.remaining = 0 ∧ i.delay = 0) := by
      rw [ne_eq, Instance.phase_eq_idle_iff] at hbusy
      omega
    have htime := reportedTime_of_still hi hstill hnidle
    obtain ⟨hdelayed, hrunning⟩ := ht.leftAt_eq hrest (by rw [hconfig]) hpos hi
    refine ⟨r, t, _, htaken, ?_, hdelayed, hrunning, fun ms => ?_⟩
    · rw [report?_of_busy hi hbusy, htime, htarget]
    · exact ⟨TransitionTime.millis?_ofMillis, TransitionTime.ofMillis_of_lt⟩

theorem remaining_measured_soloLevel :
    let ops : List Operation := [.call (.bindLightnessToLevel 0 0),
      .call (.request (.application 0 (.level 3000) 3000 2)), .advance 1000]
    ∃ n r t left i, n = soloLevel.run ops ∧ soloLevel.TakenUpAt ops 0 .level r t ∧
      n.get? 0 .level = some i ∧
      n.report? 0 .level = some ⟨i.present, some r.value, some (.ofMillis left)⟩ ∧
      n.now + left = t + 5 * r.delay + r.transition ∧
      (n.report? 0 .level).bind Report.remaining = some (.ofMillis 2010) := by
  intro ops
  have hops : ∀ link rule, Operation.call (.bind link rule) ∉ ops := by
    intro link rule
    simp [ops]
  have hhosts : (soloLevel.run ops).hosts 0 .level = true := by decide +kernel
  obtain ⟨i, hi⟩ := hosts_iff.mp hhosts
  have hphase : ((soloLevel.run ops).get? 0 .level).map Instance.phase = some .transitioning := by
    decide +kernel
  have hstill : ((soloLevel.run ops).get? 0 .level).map Instance.isMoving = some false := by
    decide +kernel
  rw [hi, Option.map_some, Option.some.injEq] at hphase hstill
  obtain ⟨r, t, left, htaken, hreport, -, hleft, -⟩ := remaining_measured isBuilt_soloLevel hops
    (rfl : _ = soloLevel.run ops) rfl hi (by simp [hphase]) hstill
  exact ⟨_, r, t, left, i, rfl, htaken, hi, hreport, hleft hphase (by decide +kernel),
    by decide +kernel⟩

/-- At the end of the clock the first step of a transition is left out of what is reported. -/
theorem measured_short_soloLevel :
    let r : Request := .application 0 (.level 3000) 3000 0
    let ops : List Operation := [.advance lastMoment, .call (.request r)]
    let n := soloLevel.run ops
    soloLevel.IsBuilt ∧ (∀ link rule, .call (.bind link rule) ∉ ops) ∧
      soloLevel.TakenUpAt ops 0 .level r lastMoment ∧
      (n.get? 0 .level).map (fun i => (i.phase, i.isMoving)) = some (.transitioning, false) ∧
      n.now + 3000 = lastMoment + 5 * r.delay + r.transition ∧
      (n.report? 0 .level).bind Report.remaining = some (.ofMillis 2000) ∧
      TransitionTime.ofMillis 2000 ≠ .ofMillis 3000 := by
  intro r ops n
  refine ⟨isBuilt_soloLevel, by simp [ops], ?_, by decide +kernel, by decide +kernel,
    by decide +kernel, by decide⟩
  exact ⟨[.advance lastMoment], .request r, [], [], rfl, by decide +kernel, by decide +kernel,
    by decide +kernel, by decide +kernel⟩

end MeshNode.Node
