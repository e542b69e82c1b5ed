import MeshNode.Proofs.Effects.TripDeeds
import MeshNode.Proofs.Transition.TimerAgreement

/-! # What goes on beside an instance

Bindings of other states can make an instance take up requests, but nothing that is done for other
instances does anything in its place. The bindings of its own state ask nothing of it, so that they
just follow the value while it stays as it is.
-/

namespace MeshNode

/-- The rule asks for immediate changes that are not passed on, and nothing else. -/
def Binding.IsTame (b : Binding Rule) : Prop :=
  ∀ elements target v, ∀ r ∈ b.rule elements target v,
    r.source = .binding ∧ r.transition = 0 ∧ r.delay = 0

theorem Binding.IsHelper.isTame {b : Binding Rule} (hb : b.IsHelper) : b.IsTame := by
  intro elements target v r hr
  obtain ⟨w, rfl, -⟩ := hb.asks hr
  exact ⟨rfl, rfl, rfl⟩

/-- The request of a binding was carried out at once, with what that comes to. -/
structure Chapter.IsBound (a : Audience) (c : Chapter) : Prop where
  motion : c.motion = none
  transition : c.request.transition = 0
  delay : c.request.delay = 0
  source : c.request.source = .binding
  deeds : c.deeds = [.updated .idle c.request.value, .saved, .published].filter a.notices

namespace Node

variable {n n' n₁ : Node} {e e' : UInt8} {m m' : Model} {i : Instance} {v w : Value}
  {F G : Follow} {r : Request} {s : Source} {b : Binding Rule} {bs : List (Binding Rule)}
  {state : BoundState} {c : Course} {d? : Option Nat}

def IsTame (n : Node) : Prop := ∀ b ∈ n.bindings.bindings, b.IsTame

theorem IsTame.evolves (h : n.IsTame) (he : n.Evolves n') : n'.IsTame := by
  rw [IsTame, he.bindings]
  exact h

/-! ## Changes that are not passed on -/

def stay : Follow := fun n _ _ _ => n

theorem carryOut_of_quiet (hs : r.source.triggersBindings = false) (n : Node) :
    n.carryOut F r = n.carryOut G r := by
  simp only [carryOut, start, program, embark, settle, passOn, hs, Bool.false_eq_true, if_false]

/-- One instance has done nothing, and nobody else takes notice of it. -/
structure DoesNothing (n n' : Node) (e : UInt8) (m : Model) : Prop where
  audience : n'.audience e m = n.audience e m
  chapters : n'.chapters e m = n.chapters e m

theorem DoesNothing.refl (n : Node) (e : UInt8) (m : Model) : n.DoesNothing n e m := ⟨rfl, rfl⟩

theorem DoesNothing.trans (h : n.DoesNothing n₁ e m) (h' : n₁.DoesNothing n' e m) :
    n.DoesNothing n' e m :=
  ⟨h'.audience.trans h.audience, h'.chapters.trans h.chapters⟩

theorem audience_modify_of_ne {f : Instance → Instance} (hx : (e', m') ≠ (e, m)) :
    (n.modify e' m' f).audience e m = n.audience e m := by
  rw [audience, audience, get?_modify_of_ne hx.symm]
  rfl

theorem chapters_note_of_subject {x : Effect} (hx : x.subject? = some (e', m'))
    (hne : (e', m') ≠ (e, m)) : (n.note x).chapters e m = n.chapters e m := by
  obtain ⟨hr, hd⟩ := effect_of_subject hx hne
  exact chapters_note_of_none hr hd

theorem doesNothing_of_doneFor (h : n.DoneFor stay (fun e' m' => (e', m') ≠ (e, m)) n') :
    n.DoesNothing n' e m := by
  induction h with
  | refl n => exact .refl n e m
  | modify hx f => exact ⟨audience_modify_of_ne hx, rfl⟩
  | timers ts => exact ⟨rfl, rfl⟩
  | note hx hne => exact ⟨rfl, chapters_note_of_subject hx hne⟩
  | follow hx v => exact .refl _ e m
  | trans _ _ ih ih' => exact ih.trans ih'

theorem doneFor_quietly {P : UInt8 → Model → Prop} (hs : r.source = .binding)
    (h : P r.element r.model) (n : Node) : n.DoneFor stay P (n.carryOut F r) := by
  have hquiet : n.carryOut F r = n.carryOut stay r := carryOut_of_quiet (by rw [hs]; rfl) n
  rw [hquiet]
  exact doneFor_carryOut h n

/-! ## The bindings of the own state -/

/-- A binding of the own state follows the value, and what it asks for is done by others. -/
theorem chapters_obey (hb : b.IsCalm) (hn : n.Typed) (hsource : b.link.source = e)
    (hstate : m.boundState? = some b.link.sourceState) :
    (obey F v n b).audience e m = n.audience e m ∧
      (obey F v n b).chapters e m = Chapter.push [.followed b.link v] (n.chapters e m) := by
  have hnote : (n.note (.followed b.link v n.depth)).chapters e m =
      Chapter.push [.followed b.link v] (n.chapters e m) :=
    chapters_note_of_deed rfl (if_pos ⟨hsource, hstate⟩)
  have hnothing : (n.note (.followed b.link v n.depth)).DoesNothing (obey F v n b) e m := by
    refine doesNothing_of_doneFor (doneFor_foldl (fun n₁ r hr => ?_) _)
    obtain ⟨hs, -, -, hmodel⟩ := hb n.elements hn b.link.target v r hr
    refine doneFor_quietly hs (fun hx => ?_) n₁
    rw [(Prod.mk.inj hx).2] at hmodel
    exact hmodel hstate
  exact ⟨hnothing.audience, hnothing.chapters.trans hnote⟩

theorem chapters_foldl_obey {room : Nat} (hn : n.Typed)
    (hb : ∀ b ∈ bs, b.IsCalm ∧ b.link.source = e ∧ m.boundState? = some b.link.sourceState) :
    (bs.foldl (obey (followBindings room) v) n).audience e m = n.audience e m ∧
      (bs.foldl (obey (followBindings room) v) n).chapters e m =
        Chapter.push ((bs.map Binding.link).reverse.map (.followed · v)) (n.chapters e m) := by
  induction bs generalizing n with
  | nil => exact ⟨rfl, (Chapter.push_nil _).symm⟩
  | cons b bs ih =>
    obtain ⟨hcalm, hsource, hstate⟩ := hb b List.mem_cons_self
    obtain ⟨haudience, hchapters⟩ := chapters_obey (F := followBindings room) (v := v) hcalm hn
      hsource hstate
    have htyped : (obey (followBindings room) v n b).Typed :=
      (closedUnderBindings_evolves.obey
        (closedUnderBindings_evolves.followBindings room) v n b).typed hn
    obtain ⟨haudience', hchapters'⟩ := ih htyped fun b' hb' => hb b' (List.mem_cons_of_mem _ hb')
    refine ⟨haudience'.trans haudience, hchapters'.trans ?_⟩
    rw [hchapters, Chapter.push_push]
    simp

/-- A node between two operations whose bindings come from the helpers. -/
structure BetweenOperations (n : Node) : Prop where
  typed : n.Typed
  isCalm : n.IsCalm
  isTame : n.IsTame
  depth : n.depth = 0
  maxBindDepth : 0 < n.config.maxBindDepth.toNat

theorem BetweenOperations.evolves (h : n.BetweenOperations) (he : n.Evolves n')
    (hd : n'.depth = n.depth) : n'.BetweenOperations where
  typed := he.typed h.typed
  isCalm := h.isCalm.evolves he
  isTame := h.isTame.evolves he
  depth := hd.trans h.depth
  maxBindDepth := by
    rw [he.config]
    exact h.maxBindDepth

theorem linksOf_of_state (h : m.boundState? = some state) (n : Node) (e : UInt8) :
    n.linksOf e m = (n.bindings.matching e state).map Binding.link := by
  rw [linksOf, h]

theorem chapters_follow (h : n.BetweenOperations) (e : UInt8) (m : Model) (v : Value) :
    (n.follow e m v).audience e m = n.audience e m ∧ (n.follow e m v).chapters e m =
      Chapter.push ((n.linksOf e m).reverse.map (.followed · v)) (n.chapters e m) := by
  obtain ⟨room, hroom⟩ := Nat.exists_eq_add_one.mpr h.maxBindDepth
  rw [follow, hroom]
  cases hstate : m.boundState? with
  | none =>
    have hlinks : n.linksOf e m = [] := by rw [linksOf, hstate]
    have hstay : followBindings (room + 1) n e m v = n := by simp only [followBindings, hstate]
    rw [hstay, hlinks]
    exact ⟨rfl, (Chapter.push_nil _).symm⟩
  | some state =>
    simp only [followBindings, hstate, linksOf_of_state hstate]
    split
    next hstop =>
      have hnil : n.bindings.matching e state = [] := by
        refine hstop.resolve_right ?_
        rw [hroom, h.depth]
        exact Nat.not_succ_le_zero room
      rw [hnil]
      exact ⟨rfl, (Chapter.push_nil _).symm⟩
    next =>
      refine chapters_foldl_obey (n := { n with depth := n.depth + 1 }) h.typed fun b hb => ?_
      obtain ⟨hmem, hsource, hbstate⟩ := mem_matching hb
      exact ⟨h.isCalm b hmem, hsource, hstate.trans (congrArg some hbstate.symm)⟩

theorem heralds_follow (h : n.BetweenOperations) : Heralds follow n e m v := by
  intro c d? hw
  obtain ⟨haudience, hchapters⟩ := chapters_follow h e m v
  have hnoticed : ((n.linksOf e m).reverse.map (Deed.followed · v)).filter
      (n.audience e m).notices = (n.linksOf e m).reverse.map (.followed · v) := by
    refine List.filter_eq_self.mpr fun y hy => ?_
    obtain ⟨link, -, rfl⟩ := List.mem_map.mp hy
    rfl
  exact {
    evolves := evolves_follow n e m v
    depth := (deepens_follow n e m v).depth
    onCourse := hw.congr ((calms_follow (m := m) h.typed h.isCalm e v).watch e)
      (evolves_follow n e m v).armings
    audience := haudience
    chapters := by rw [hnoticed, hchapters] }

theorem passes_follow (h : n.BetweenOperations) (w : Value) (s : Source) :
    Passes follow n e m w s :=
  fun _ _ he hd => heralds_follow (h.evolves he hd)

/-! ## The bindings of other states -/

/-- All that one instance took up are requests of bindings. -/
structure TakesUpBound (n n' : Node) (e : UInt8) (m : Model) : Prop where
  audience : n'.audience e m = n.audience e m
  chapters : ∃ new : List Chapter, n'.chapters e m = new ++ n.chapters e m ∧
    ∀ c ∈ new, c.IsBound (n.audience e m)

theorem DoesNothing.takesUpBound (h : n.DoesNothing n' e m) : n.TakesUpBound n' e m :=
  ⟨h.audience, [], h.chapters, fun _ hc => by cases hc⟩

theorem TakesUpBound.refl (n : Node) (e : UInt8) (m : Model) : n.TakesUpBound n e m :=
  (DoesNothing.refl n e m).takesUpBound

theorem TakesUpBound.trans (h : n.TakesUpBound n₁ e m) (h' : n₁.TakesUpBound n' e m) :
    n.TakesUpBound n' e m := by
  obtain ⟨haudience, new, hnew, hbound⟩ := h
  obtain ⟨haudience', new', hnew', hbound'⟩ := h'
  refine ⟨haudience'.trans haudience, new' ++ new, ?_, fun c hc => ?_⟩
  · rw [hnew', hnew, List.append_assoc]
  · rcases List.mem_append.mp hc with hc | hc
    · exact haudience ▸ hbound' c hc
    · exact hbound c hc

theorem doesNothing_emit {status : Status} {v : Value} {target? : Option Value} {phase : Phase}
    (hs : status ≠ .success) (n : Node) (e' : UInt8) (m' : Model) :
    n.DoesNothing (n.emit (.stateUpdate status e' m' s v target? phase)) e m := by
  unfold emit
  split
  · refine ⟨rfl, chapters_note_of_none rfl ?_⟩
    cases status with
    | success => exact absurd rfl hs
    | _ => rfl
  · exact .refl n e m

theorem takesUpBound_carryOut (hs : r.source = .binding) (ht : r.transition = 0) (hd : r.delay = 0)
    (n : Node) : n.TakesUpBound (n.carryOut F r) e m := by
  by_cases hx : (r.element, r.model) = (e, m)
  · obtain ⟨e', m', v, t, d, s⟩ := r
    obtain ⟨rfl, rfl, rfl⟩ := (⟨hs, ht, hd⟩ : s = .binding ∧ t = 0 ∧ d = 0)
    obtain ⟨rfl, rfl⟩ : e' = e ∧ m' = m := Prod.mk.inj hx
    unfold carryOut
    split
    next hcheck =>
      cases hi : n.get? e' m' with
      | none =>
        simp only [start, hi]
        exact .refl n e' m'
      | some i =>
        have hquiet : Passes F n e' m' (confine i v) .binding := fun hb => by cases hb
        obtain ⟨haudience, hchapters, -⟩ := setsOut_start (t := 0) (d := 0) hi
          (model_of_check hcheck rfl) (fun h => absurd h (Nat.lt_irrefl 0)) hquiet
        refine ⟨haudience, [_], hchapters, fun c hc => ?_⟩
        obtain rfl := List.mem_singleton.mp hc
        have ht : (admitted i ⟨e', m', v, 0, 0, .binding⟩).transition = 0 := ite_self _
        have hd : (admitted i ⟨e', m', v, 0, 0, .binding⟩).delay = 0 := ite_self _
        refine ⟨rfl, ht, hd, rfl, ?_⟩
        rw [Trip.first_of_immediate ht hd, Trip.trace_of_immediate ht hd rfl]
    next hcheck => exact (doesNothing_emit hcheck n _ _).takesUpBound
  · exact (doesNothing_of_doneFor (doneFor_quietly hs hx n)).takesUpBound

theorem takesUpBound_foldl {α : Type} {f : Node → α → Node} {as : List α}
    (hf : ∀ n : Node, ∀ a ∈ as, n.TakesUpBound (f n a) e m) (n : Node) :
    n.TakesUpBound (as.foldl f n) e m :=
  List.foldlRecOn (motive := (n.TakesUpBound · e m)) as f (.refl n e m) fun n' h a ha =>
    h.trans (hf n' a ha)

theorem takesUpBound_obey (hb : b.IsTame)
    (hx : ¬ (b.link.source = e ∧ m.boundState? = some b.link.sourceState)) (n : Node) :
    n.TakesUpBound (obey F v n b) e m := by
  have hnote : n.DoesNothing (n.note (.followed b.link v n.depth)) e m :=
    ⟨rfl, chapters_note_of_none rfl (if_neg hx)⟩
  refine hnote.takesUpBound.trans (takesUpBound_foldl (fun n₁ r hr => ?_) _)
  obtain ⟨hs, ht, hd⟩ := hb n.elements b.link.target v r hr
  exact takesUpBound_carryOut hs ht hd n₁

theorem takesUpBound_follow (h : n.IsTame) (hx : (e', m') ≠ (e, m)) (v : Value) :
    n.TakesUpBound (n.follow e' m' v) e m := by
  refine follow_induct (motive := (n.TakesUpBound · e m)) (fun n₁ depth h₁ => ?_)
    (fun n₁ room b hb hsource hstate h₁ => ?_) (.refl n e m)
  · obtain ⟨haudience, hchapters⟩ := h₁
    exact ⟨haudience, hchapters⟩
  · refine h₁.trans (takesUpBound_obey (h b hb) (fun hown => hx ?_) n₁)
    exact Prod.ext (hsource.symm.trans hown.1) (boundState?_inj hstate hown.2)

/-- What is done for other instances makes this one take up requests of bindings at most. -/
theorem takesUpBound_of_doneFor (h : n.DoneFor Node.follow (fun e' m' => (e', m') ≠ (e, m)) n')
    (ht : n.IsTame) : n.TakesUpBound n' e m ∧ n'.IsTame := by
  induction h with
  | refl n => exact ⟨.refl n e m, ht⟩
  | modify hx f => exact ⟨DoesNothing.takesUpBound ⟨audience_modify_of_ne hx, rfl⟩, ht⟩
  | timers ts => exact ⟨DoesNothing.takesUpBound ⟨rfl, rfl⟩, ht⟩
  | note hx hne => exact ⟨DoesNothing.takesUpBound ⟨rfl, chapters_note_of_subject hx hne⟩, ht⟩
  | follow hx v => exact ⟨takesUpBound_follow ht hx v, ht.evolves (evolves_follow ..)⟩
  | trans _ _ ih ih' =>
    obtain ⟨hb, ht⟩ := ih ht
    obtain ⟨hb', ht'⟩ := ih' ht
    exact ⟨hb.trans hb', ht'⟩

end Node

end MeshNode
