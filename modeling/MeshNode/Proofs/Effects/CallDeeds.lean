import MeshNode.Proofs.Effects.Bystanders
import MeshNode.Proofs.Reports.MeasuredTime

/-! # What a call has an instance do

In a call an instance sets out on the trip of the request that it takes up last and does what
belongs to it, or it takes up nothing. Then it does nothing either, unless the call is about that
instance.
-/

namespace MeshNode.Node

variable {n n' n₁ : Node} {e e' : UInt8} {m m' : Model} {i : Instance} {v : Value} {s : Source}
  {t d : Nat} {p : Trip} {leg : Trip.Leg} {r : Request} {c : Envelope} {ack : Bool}
  {f : Instance → Instance} {origin : Value}

/-- If an instance took up nothing it was left alone, and else it has done what belongs to the trip
that the last request sent it on. -/
structure Reacts (n n' : Node) (e : UInt8) (m : Model) : Prop where
  keepsToRequests : n.KeepsToRequestsAt n' e m
  audience : n'.audience e m = n.audience e m
  quiet : n'.requestsFor e m = n.requestsFor e m → n'.chapters e m = n.chapters e m
  conducts : n'.requestsFor e m ≠ n.requestsFor e m → ∃ r rest origin leg,
    n'.requestsFor e m = (r, none) :: rest ∧ n'.Conducts e m (n'.trip r origin) leg

theorem KeepsToRequestsAt.between (h : n.KeepsToRequestsAt n₁ e m)
    (h' : n₁.KeepsToRequestsAt n' e m)
    (hr : n'.requestsFor e m = n.requestsFor e m) : n₁.requestsFor e m = n.requestsFor e m := by
  have hlen := h'.suffix.length_le
  rw [hr] at hlen
  exact (h.suffix.eq_of_length_le hlen).symm

theorem requestsFor_of_chapters (h : n'.chapters e m = n.chapters e m) :
    n'.requestsFor e m = n.requestsFor e m := by
  rw [requestsFor_eq_chapters, requestsFor_eq_chapters, h]

namespace Reacts

theorem of_doesNothing (hh : n.KeepsToRequestsAt n' e m) (ha : n.DoesNothing n' e m) :
    n.Reacts n' e m :=
  ⟨hh, ha.audience, fun _ => ha.chapters, fun h => absurd (requestsFor_of_chapters ha.chapters) h⟩

theorem refl (n : Node) (e : UInt8) (m : Model) : n.Reacts n e m :=
  .of_doesNothing (KeepsToRequests.refl n e m) (.refl n e m)

theorem trans (h : n.Reacts n₁ e m) (h' : n₁.Reacts n' e m) : n.Reacts n' e m where
  keepsToRequests := h.keepsToRequests.trans h'.keepsToRequests
  audience := h'.audience.trans h.audience
  quiet hr := by
    have hr₁ := h.keepsToRequests.between h'.keepsToRequests hr
    exact (h'.quiet (hr.trans hr₁.symm)).trans (h.quiet hr₁)
  conducts hr := by
    by_cases hr' : n'.requestsFor e m = n₁.requestsFor e m
    · obtain ⟨r, rest, origin, leg, hhead, hconducts⟩ := h.conducts (hr' ▸ hr)
      refine ⟨r, rest, origin, leg, hr'.trans hhead, ?_⟩
      rw [trip_congr h'.keepsToRequests.config h'.keepsToRequests.now]
      exact hconducts.congr (h'.keepsToRequests.watch hr') h'.audience (h'.quiet hr')
        h'.keepsToRequests.now.ge
        h'.keepsToRequests.armings
    · exact h'.conducts hr'

theorem of_takesUpBound (hh : n.KeepsToRequestsAt n' e m) (hb : n.TakesUpBound n' e m) :
    n.Reacts n' e m := by
  obtain ⟨haudience, new, hnew, hbound⟩ := hb
  cases new with
  | nil => exact .of_doesNothing hh ⟨haudience, hnew⟩
  | cons c cs =>
    have hrequests : n'.requestsFor e m =
        (c.request, none) :: (cs ++ n.chapters e m).map fun c => (c.request, c.motion) := by
      rw [requestsFor_eq_chapters, hnew, List.cons_append, List.map_cons,
        (hbound c List.mem_cons_self).motion]
    have hlen : n'.requestsFor e m ≠ n.requestsFor e m := by
      intro h
      have hlen := congrArg List.length h
      rw [hrequests, requestsFor_eq_chapters] at hlen
      simp only [List.length_cons, List.length_map, List.length_append] at hlen
      omega
    refine ⟨hh, haudience, fun h => absurd h hlen, fun _ => ?_⟩
    obtain ⟨hmotion, ht, hd, hs, hdeeds⟩ := hbound c List.mem_cons_self
    obtain ⟨origin, leg, edge, since, hhas, hon, hle, hexact⟩ := hh.travels hrequests hlen
    obtain rfl : leg = .arrived := by
      cases leg with
      | waiting => exact absurd hhas (by simp [Trip.Has, trip, hd])
      | running k => exact absurd hhas.1 (by simp [trip, ht])
      | arrived => rfl
    refine ⟨c.request, _, origin, .arrived, hrequests, trivial, ?_,
      ⟨edge, none, by simp, hon, rfl, fun _ => rfl⟩, fun hin => hexact hin ▸ hle,
      cs ++ n.chapters e m, ?_⟩
    · intro hpos
      rw [trip, ht] at hpos
      cases hpos
    · rw [hnew, haudience, Trip.trace_of_immediate ht hd hs, List.cons_append]
      obtain ⟨request, motion, deeds⟩ := c
      rw [← hmotion]
      exact congrArg (fun ds => Chapter.mk request motion ds :: _) hdeeds

theorem of_setsOut (hh : n.KeepsToRequestsAt n' e m) (hs : n.SetsOut n' e m (n.trip r origin)) :
    n.Reacts n' e m := by
  have hrequests : n'.requestsFor e m = (r, none) :: n.requestsFor e m := by
    rw [requestsFor_eq_chapters, hs.chapters, List.map_cons, requestsFor_eq_chapters]
    rfl
  refine ⟨hh, hs.audience, fun h => ?_, fun _ => ?_⟩
  · exact absurd (hrequests.symm.trans h) (List.cons_ne_self _ _)
  · refine ⟨r, _, origin, (n.trip r origin).first, hrequests, ?_⟩
    rw [trip_congr hh.config hh.now]
    exact hs.conducts

end Reacts

/-! ## Requests -/

theorem reacts_of_doneFor (h : n.BetweenOperations)
    (hd : n.DoneFor Node.follow (fun e' m' => (e', m') ≠ (e, m)) n')
    (hh : n.KeepsToRequestsAt n' e m) :
    n.Reacts n' e m :=
  .of_takesUpBound hh (takesUpBound_of_doneFor hd h.isTame).1

theorem reacts_start (h : n.BetweenOperations) (e' : UInt8) (v : Value) (t d : Nat) (s : Source) :
    n.Reacts (n.start follow e' v.model v t d s none) e m := by
  have hh : n.KeepsToRequests (n.start follow e' v.model v t d s none) :=
    keepsToRequests_start keepsToRequests_follow
  by_cases hx : (e', v.model) = (e, m)
  · obtain ⟨rfl, rfl⟩ := Prod.mk.injEq .. ▸ hx
    cases hi : n.get? e' v.model with
    | none =>
      simp only [start, hi]
      exact .refl n e' v.model
    | some i =>
      exact .of_setsOut (hh _ _) (setsOut_start hi rfl (fun _ => (h.typed e' _ i hi).present)
        (passes_follow h _ s))
  · exact reacts_of_doneFor h (doneFor_start hx n) (hh e m)

theorem reacts_carryOut (h : n.BetweenOperations) (r : Request) :
    n.Reacts (n.carryOut follow r) e m := by
  unfold carryOut
  split
  next hcheck =>
    obtain ⟨e', m', v, t, d, s⟩ := r
    obtain rfl : v.model = m' := model_of_check hcheck rfl
    exact reacts_start h e' v t d s
  next hcheck =>
    exact .of_doesNothing ((KeepsToRequests.refl n).tells (tells_emit n _) e m)
      (doesNothing_emit hcheck n _ _)

theorem BetweenOperations.carryOut (h : n.BetweenOperations) (r : Request) :
    (n.carryOut follow r).BetweenOperations :=
  h.evolves (evolves_carryOut evolves_follow n r) (nests_carryOut deepens_follow n r).depth

theorem reacts_foldl {rs : List Request} (h : n.BetweenOperations) :
    n.Reacts (rs.foldl (carryOut follow) n) e m := by
  induction rs generalizing n with
  | nil => exact .refl n e m
  | cons r rs ih => exact (reacts_carryOut h r).trans (ih (h.carryOut r))

/-! ## Messages -/

theorem doesNothing_modify (hs : ∀ i, (f i).isSaved = i.isSaved) (n : Node) (e' : UInt8)
    (m' : Model) : n.DoesNothing (n.modify e' m' f) e m :=
  ⟨audience_modify hs e m, rfl⟩

theorem reacts_modify (hc : ∀ i, (f i).course = i.course) (hs : ∀ i, (f i).isSaved = i.isSaved)
    (n : Node) (e' : UInt8) (m' : Model) : n.Reacts (n.modify e' m' f) e m :=
  .of_doesNothing (.of_watch rfl rfl List.suffix_rfl rfl (watch_modify_of_course hc e m))
    (doesNothing_modify hs n e' m')

theorem doesNothing_sendStatus (n : Node) (e' : UInt8) (m' : Model) (dst appKey : UInt16)
    (unicast : Bool) : n.DoesNothing (n.sendStatus e' m' dst appKey unicast) e m := by
  unfold sendStatus handOver
  split
  · split
    · exact ⟨rfl, chapters_note_of_none rfl rfl⟩
    · exact .refl n e m
  · exact .refl n e m

theorem reacts_sendStatus (n : Node) (e' : UInt8) (m' : Model) (dst appKey : UInt16)
    (unicast : Bool) : n.Reacts (n.sendStatus e' m' dst appKey unicast) e m :=
  .of_doesNothing ((KeepsToRequests.refl n).tells (tells_sendStatus n e' m' dst appKey unicast) e m)
    (doesNothing_sendStatus n e' m' dst appKey unicast)

theorem reacts_remember (n : Node) (c : Envelope) (m' : Model) (k : UInt8) (ack : Bool) :
    n.Reacts (n.remember c m' k ack) e m := by
  refine .of_doesNothing (.of_watch rfl rfl Timers.armings_arm rfl (watch_remember e m)) ⟨?_, rfl⟩
  refine Eq.trans rfl (audience_modify (n := n) (e := c.element) (m := m') (f := fun i => { i with
    transaction := ⟨c.src, k⟩, pendingReply := if ack then some c.reply else none }) ?_ e m)
  exact fun _ => rfl

theorem BetweenOperations.remember (h : n.BetweenOperations) {k : UInt8} :
    (n.remember c m k ack).BetweenOperations :=
  ⟨typed_remember h.typed, h.isCalm, h.isTame, h.depth, h.maxBindDepth⟩

theorem doesNothing_answerUnlessDelayed (n : Node) (c : Envelope) (m' : Model) :
    n.DoesNothing (n.answerUnlessDelayed c m') e m := by
  unfold answerUnlessDelayed
  split
  · exact .refl n e m
  · split
    · exact .refl n e m
    · split
      · refine .trans (doesNothing_modify ?_ n c.element m') (doesNothing_sendStatus _ _ _ _ _ _)
        exact fun _ => rfl
      · exact .refl n e m

theorem reacts_answerUnlessDelayed (n : Node) (c : Envelope) (m' : Model) :
    n.Reacts (n.answerUnlessDelayed c m') e m :=
  .of_doesNothing ((works_answerUnlessDelayed n c m').keepsToRequests e m)
    (doesNothing_answerUnlessDelayed n c m')

theorem reacts_onSet (h : n.BetweenOperations) (p : Params Value) :
    n.Reacts (n.onSet c i p ack).1 e m := by
  unfold onSet
  split
  · exact .refl n e m
  · exact ((reacts_remember n _ _ _ _).trans (reacts_start h.remember _ _ _ _ _)).trans
      (reacts_answerUnlessDelayed _ _ _)

theorem reacts_onDelta (h : n.BetweenOperations) (p : Params Int32) :
    n.Reacts (n.onDelta c i p ack).1 e m := by
  have hset : n.Evolves (n.modify c.element .level fun j =>
      { j with deltaOrigin := some (deltaOrigin i c.src p.tid) }) :=
    evolves_modify (fun _ => rfl) (fun _ => .inl rfl) fun _ hj => hj.congr rfl
  refine .trans
    (.trans (.trans (reacts_modify ?_ ?_ n c.element .level) (reacts_remember _ _ _ _ _))
    (reacts_start ?_ _ _ _ _ _)) (reacts_answerUnlessDelayed _ _ _)
  · exact fun _ => rfl
  · exact fun _ => rfl
  · exact (h.evolves hset rfl).remember

theorem reacts_withParams {α : Type} {p : Except (List Violation) α} {act : α → Node × Outcome}
    (h : ∀ a, n.Reacts (act a).1 e m) : n.Reacts (n.withParams p act).1 e m := by
  unfold withParams
  split
  · exact h _
  · exact .refl n e m

theorem reacts_modify_of_ne (hx : (e', m') ≠ (e, m)) (n : Node) :
    n.Reacts (n.modify e' m' f) e m :=
  .of_doesNothing (.of_watch rfl rfl List.suffix_rfl rfl (watch_modify_of_ne hx.symm))
    ⟨audience_modify_of_ne hx, rfl⟩

theorem reacts_of_tells (ht : n.Tells n')
    (hd : n.DoneFor stay (fun e' m' => (e', m') ≠ (e, m)) n') : n.Reacts n' e m :=
  .of_doesNothing ((KeepsToRequests.refl n).tells ht e m) (doesNothing_of_doneFor hd)

theorem reacts_store (hx : (c.element, v.model) ≠ (e, m)) (n : Node) :
    n.Reacts (n.store c v ack).1 e m := by
  have hstored : n.Reacts (n.stored c.element v) e m :=
    ((reacts_modify_of_ne hx n).trans
      (reacts_of_tells (tells_save _ _ _) (doneFor_save hx _))).trans
      (reacts_of_tells (tells_emit _ _) (doneFor_emit hx _ rfl rfl))
  rw [store_eq]
  dsimp only
  split
  · exact hstored.trans (reacts_sendStatus _ _ _ _ _ _)
  · exact hstored

/-- A message has an instance do nothing by itself, unless it is a move of that instance. -/
theorem reacts_receive {message : Message} (h : n.BetweenOperations) (hm : m.isTransitional = true)
    (hmove : ∀ bytes ack, message = .levelMove bytes ack → (c.element, Model.level) ≠ (e, m)) :
    n.Reacts (n.receive c message).1 e m := by
  have hstored : ∀ m', m'.isTransitional = false → (c.element, m') ≠ (e, m) := by
    rintro m' hm' hx
    rw [(Prod.mk.inj hx).2, hm] at hm'
    cases hm'
  have hh : ∀ bytes ack, message = .levelMove bytes ack →
      n.KeepsToRequestsAt (n.receive c message).1 e m := by
    rintro bytes ack rfl
    refine keepsToRequestsAt_receive fun hx => hmove bytes ack rfl ?_
    exact Prod.ext hx.1 hx.2.1
  unfold receive at hh ⊢
  split
  next => exact .refl n e m
  next i hi =>
    simp only [hi] at hh
    unfold process at hh ⊢
    split
    next => exact reacts_sendStatus n _ _ _ _ _
    next => exact reacts_withParams fun p => reacts_onSet h p
    next => exact reacts_withParams fun p => reacts_onSet h p
    next => exact reacts_withParams fun p => reacts_onSet h p
    next => exact reacts_withParams fun b => reacts_store (hstored .powerOnOff rfl) n
    next => exact reacts_withParams fun t => reacts_store (hstored .defaultTransition rfl) n
    next => exact reacts_withParams fun p => reacts_onDelta h p
    next bytes ack =>
      refine reacts_of_doneFor h (doneFor_withParams fun p _ => doneFor_onMove ?_ n)
        (hh bytes ack rfl)
      exact hmove bytes ack rfl

theorem Moves.requestsFor (h : n.Moves e n') (hn : n.Typed) (hc : n.IsCalm) :
    n'.requestsFor e .level = n.requestsFor e .level ∨
      ∃ r k rest, n'.requestsFor e .level = (r, some k) :: rest := by
  cases h with
  | stay => exact .inl rfl
  | halt =>
    refine .inl ?_
    cases hi : n.get? e .level with
    | none =>
      have hi' : (n.cancel (transitionTimer e .level)).get? e .level = none := hi
      simp only [Node.halt, hi']
      rfl
    | some i =>
      obtain ⟨n₁, hw, hR⟩ := halt_writes (isAftermath_calms .level) hi
      have ht := hn e .level i hi
      refine (hw.proceeds hn hc ?_ hR).requests
      split
      · exact ⟨ht.present, ht.target, ht.stepping, by simp⟩
      · exact Course.typed_finish _ ht.present
  | start bound t d k _ =>
    cases hi : n.get? e .level with
    | none =>
      refine .inl ?_
      simp only [Node.start, hi]
    | some i =>
      obtain ⟨n₁, hw, hR⟩ := start_writes (v := .level bound) (t := t) (d := d) (s := .client)
        (isAftermath_calms .level) (fun _ n w hn hc => calms_follow hn hc e w) (some k) hi
      have hct : (n.admittedCourse i ⟨e, .level, .level bound, t, d, .client⟩
        (some k)).Typed .level :=
        typed_admittedCourse (hn e .level i hi) rfl fun _ => rfl
      have hvalue : (confine i (.level bound)).model = .level := model_confine i (.level bound)
      have hcalms := hR (hw.typed hn (hct.enter hvalue)) (hw.isCalm hc)
      exact .inr ⟨_, k, _, (hcalms.same e).1.trans hw.requests⟩

theorem requestsFor_levelMove (h : n.BetweenOperations) (bytes : List UInt8) (ack : Bool) :
    (n.receive c (.levelMove bytes ack)).1.requestsFor c.element .level =
      n.requestsFor c.element .level ∨
    ∃ r k rest, (n.receive c (.levelMove bytes ack)).1.requestsFor c.element .level =
      (r, some k) :: rest := by
  simp only [receive, process, withParams]
  split
  · exact .inl rfl
  next i hi =>
    split
    next p hp =>
      unfold onMove
      split
      · exact .inl rfl
      · rw [requestsFor_of_chapters (doesNothing_answerUnlessDelayed _ c .level).chapters]
        refine Moves.requestsFor (n := n.remember c .level p.tid ack) ?_ (typed_remember h.typed)
          h.isCalm
        split
        · exact .halt
        next hspeed =>
          split
          · exact .start _ _ _ _ (Motion.leadsTo_ofSpeed hspeed ..)
          · exact .stay
    · exact .inl rfl

end MeshNode.Node
