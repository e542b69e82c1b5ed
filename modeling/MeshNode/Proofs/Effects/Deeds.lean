import MeshNode.Proofs.Bindings.NestingDepth

/-! # What an instance does

Of all that a node does to the outside, what one instance does: its publications, saves and updates,
and the bindings of its state that are followed. It is kept in chapters, one for each request that
the instance took up. Small changes of a node perform some deeds of an instance, one after the
other.
-/

namespace MeshNode

inductive Deed where
  | followed (link : Link) (value : Value)
  | published
  | saved
  | updated (phase : Phase) (value : Value)
  deriving DecidableEq

def Effect.deed? (element : UInt8) (model : Model) : Effect → Option Deed
  | .heard _ (.stateUpdate .success e m _ value _ phase) =>
    if e = element ∧ m = model then some (.updated phase value) else none
  | .saved image => if image.element = element ∧ image.model = model then some .saved else none
  | .out (.published publication) =>
    if publication.element = element ∧ publication.model = model then some .published else none
  | .followed link value _ =>
    if link.source = element ∧ model.boundState? = some link.sourceState then
      some (.followed link value)
    else none
  | _ => none

/-- A request that an instance took up, and what it did until it took up the next one, latest
first. -/
structure Chapter where
  request : Request
  motion : Option Motion
  deeds : List Deed

namespace Chapter

def push (ds : List Deed) : List Chapter → List Chapter
  | [] => []
  | c :: cs => { c with deeds := ds ++ c.deeds } :: cs

@[simp] theorem push_nil (cs : List Chapter) : push [] cs = cs := by cases cs <;> rfl

theorem push_push (ds ds' : List Deed) (cs : List Chapter) :
    push ds' (push ds cs) = push (ds' ++ ds) cs := by
  cases cs with
  | nil => rfl
  | cons c cs => simp [push]

end Chapter

def Effect.record (element : UInt8) (model : Model) (x : Effect) (cs : List Chapter) :
    List Chapter :=
  match x.requestFor? element model with
  | some (r, motion) => ⟨r, motion, []⟩ :: cs
  | none => Chapter.push (x.deed? element model).toList cs

/-- Who takes notice of an instance: the bindings that follow its state, and whether it is listened
to. -/
structure Audience where
  links : List Link
  isConnected : Bool
  isSaved : Bool
  isHeard : Bool
  deriving DecidableEq

def Audience.notices (a : Audience) : Deed → Bool
  | .followed .. => true
  | .published => a.isConnected
  | .saved => a.isSaved
  | .updated .. => a.isHeard

/-- The bindings of a state follow a value that was asked for by a source, latest first. -/
def heralds (links : List Link) (source : Source) (value : Value) : List Deed :=
  if source.triggersBindings then links.reverse.map (.followed · value) else []

namespace Course

def phase (c : Course) : Phase :=
  if 0 < c.delay then .delayed else if 0 < c.remaining then .transitioning else .idle

def settleDeeds (links : List Link) (c : Course) (w : Value) (s : Source) : List Deed :=
  .updated .idle w :: .saved :: .published :: if c.edgeResolved then [] else heralds links s w

/-- What an instance does when a request is entered. -/
def enterDeeds (links : List Link) (c : Course) (w : Value) (t d : Nat) (s : Source) : List Deed :=
  if 0 < d then [.updated .delayed c.present]
  else if 0 < t then
    .updated .transitioning (if w.isImmediate then w else c.present) ::
      if w.isImmediate then heralds links s w else []
  else c.settleDeeds links w s

end Course

namespace Node

variable {n n' n₁ n₂ : Node} {e e' : UInt8} {m m' : Model} {i : Instance} {x : Effect}
  {c c' : Course} {d? d?' : Option Nat} {ds ds' : List Deed} {w : Value} {s : Source} {t d : Nat}
  {r : Request} {motion : Option Motion} {F : Follow}

def chapters (n : Node) (element : UInt8) (model : Model) : List Chapter :=
  n.log.foldr (Effect.record element model) []

def linksOf (n : Node) (element : UInt8) (model : Model) : List Link :=
  match model.boundState? with
  | some state => (n.bindings.matching element state).map Binding.link
  | none => []

def audience (n : Node) (element : UInt8) (model : Model) : Audience where
  links := n.linksOf element model
  isConnected := n.isConnected
  isSaved := (n.get? element model).any Instance.isSaved
  isHeard := n.listeners.isRegistered model

/-! ## Chapters -/

theorem chapters_note : (n.note x).chapters e m = x.record e m (n.chapters e m) := rfl

theorem chapters_note_of_deed {y : Deed} (hr : x.requestFor? e m = none)
    (hd : x.deed? e m = some y) : (n.note x).chapters e m = Chapter.push [y] (n.chapters e m) := by
  rw [chapters_note, Effect.record, hr, hd]
  rfl

theorem chapters_note_of_none (hr : x.requestFor? e m = none) (hd : x.deed? e m = none) :
    (n.note x).chapters e m = n.chapters e m := by
  rw [chapters_note, Effect.record, hr, hd]
  exact Chapter.push_nil _

theorem requestsFor_eq_chapters (n : Node) (e : UInt8) (m : Model) :
    n.requestsFor e m = (n.chapters e m).map fun c => (c.request, c.motion) := by
  have hpush (ds : List Deed) (cs : List Chapter) : (Chapter.push ds cs).map
      (fun c => (c.request, c.motion)) = cs.map fun c => (c.request, c.motion) := by
    cases cs <;> rfl
  rw [requestsFor, chapters]
  induction n.log with
  | nil => rfl
  | cons x log ih =>
    rw [List.foldr_cons, Effect.record, List.filterMap_cons]
    cases x.requestFor? e m with
    | none => exact ih.trans (hpush _ _).symm
    | some q => exact congrArg (q :: ·) ih

theorem effect_of_subject (hx : x.subject? = some (e', m')) (hne : (e', m') ≠ (e, m)) :
    x.requestFor? e m = none ∧ x.deed? e m = none := by
  have hne : ¬ (e' = e ∧ m' = m) := fun h => hne (Prod.ext h.1 h.2)
  cases x with
  | followed => cases hx
  | requested r motion =>
    obtain ⟨rfl, rfl⟩ := Prod.mk.injEq .. ▸ Option.some.inj hx
    exact ⟨if_neg hne, rfl⟩
  | saved image =>
    obtain ⟨rfl, rfl⟩ := Prod.mk.injEq .. ▸ Option.some.inj hx
    exact ⟨rfl, if_neg hne⟩
  | heard listener event =>
    cases event with
    | currentState => exact ⟨rfl, rfl⟩
    | stateUpdate status =>
      obtain ⟨rfl, rfl⟩ := Prod.mk.injEq .. ▸ Option.some.inj hx
      cases status with
      | success => exact ⟨rfl, if_neg hne⟩
      | _ => exact ⟨rfl, rfl⟩
  | out message =>
    cases message with
    | sent => exact ⟨rfl, rfl⟩
    | published =>
      obtain ⟨rfl, rfl⟩ := Prod.mk.injEq .. ▸ Option.some.inj hx
      exact ⟨rfl, if_neg hne⟩

/-! ## Deeds done -/

/-- One instance is on a course, has taken up nothing and done some deeds, latest first. -/
structure Performs (n n' : Node) (e : UInt8) (m : Model) (c : Course) (d? : Option Nat)
    (ds : List Deed) : Prop where
  evolves : n.Evolves n'
  depth : n'.depth = n.depth
  onCourse : n'.OnCourse e m c d?
  audience : n'.audience e m = n.audience e m
  chapters : n'.chapters e m =
    Chapter.push (ds.filter (n.audience e m).notices) (n.chapters e m)

namespace Performs

theorem refl (h : n.OnCourse e m c d?) : n.Performs n e m c d? [] :=
  ⟨.refl n, rfl, h, rfl, (Chapter.push_nil _).symm⟩

theorem trans (h : n.Performs n₁ e m c d? ds) (h' : n₁.Performs n₂ e m c' d?' ds') :
    n.Performs n₂ e m c' d?' (ds' ++ ds) where
  evolves := h.evolves.trans h'.evolves
  depth := h'.depth.trans h.depth
  onCourse := h'.onCourse
  audience := h'.audience.trans h.audience
  chapters := by
    rw [h'.chapters, h.audience, h.chapters, Chapter.push_push, List.filter_append]

end Performs

theorem performs_note {y : Deed} (hw : n.OnCourse e m c d?) (hr : x.requestFor? e m = none)
    (hd : x.deed? e m = some y) (hy : (n.audience e m).notices y = true) :
    n.Performs (n.note x) e m c d? [y] := by
  refine ⟨evolves_note n x, rfl, hw.withCourse hw.course rfl, rfl, ?_⟩
  rw [chapters_note_of_deed hr hd, List.filter_cons, if_pos hy]
  rfl

theorem performs_unnoticed {y : Deed} (hw : n.OnCourse e m c d?)
    (hy : ¬ (n.audience e m).notices y = true) : n.Performs n e m c d? [y] := by
  refine ⟨.refl n, rfl, hw, rfl, ?_⟩
  rw [List.filter_cons, if_neg hy]
  exact (Chapter.push_nil _).symm

theorem audience_modify {f : Instance → Instance} (hs : ∀ i, (f i).isSaved = i.isSaved)
    (e' : UInt8) (m' : Model) : (n.modify e m f).audience e' m' = n.audience e' m' := by
  have hsaved : ((n.modify e m f).get? e' m').any Instance.isSaved =
      (n.get? e' m').any Instance.isSaved := by
    by_cases hx : (e', m') = (e, m)
    · obtain ⟨rfl, rfl⟩ := Prod.mk.injEq .. ▸ hx
      rw [get?_modify_self]
      cases n.get? e' m' with
      | none => rfl
      | some i => exact hs i
    · rw [get?_modify_of_ne hx]
  rw [audience, audience, hsaved]
  rfl

namespace Performs

theorem modify {f : Instance → Instance} (h : n.Performs n₁ e m c d? ds)
    (hf : ∀ i, i.course = c → (f i).course = c') (hs : ∀ i, (f i).isSaved = i.isSaved)
    (he : n₁.Evolves (n₁.modify e m f)) : n.Performs (n₁.modify e m f) e m c' d? ds where
  evolves := h.evolves.trans he
  depth := h.depth
  onCourse := by
    obtain ⟨i, hi, hic⟩ := h.onCourse.exists_get?
    refine h.onCourse.withCourse ?_ rfl
    rw [watch_modify_self hi, hf i hic]
  audience := (audience_modify hs e m).trans h.audience
  chapters := h.chapters

theorem arm (h : n.Performs n₁ e m c d? ds) (after : Nat)
    (ha : 0 < n.config.stepInterval.toNat → 0 < after) :
    n.Performs (n₁.arm (transitionTimer e m) after) e m c (some (n.now + after)) ds where
  evolves := by
    obtain ⟨i, hi, -⟩ := h.onCourse.exists_get?
    exact h.evolves.trans (evolves_arm (hosts_iff.mpr ⟨i, hi⟩) (h.evolves.config ▸ ha))
  depth := h.depth
  onCourse := h.evolves.now ▸ h.onCourse.arm after
  audience := h.audience
  chapters := h.chapters

theorem cancel (h : n.Performs n₁ e m c d? ds) :
    n.Performs (n₁.cancel (transitionTimer e m)) e m c none ds where
  evolves := h.evolves.trans evolves_cancel
  depth := h.depth
  onCourse := h.onCourse.cancel
  audience := h.audience
  chapters := h.chapters

end Performs

theorem performs_publish (hw : n.OnCourse e m c d?) :
    n.Performs (n.publish e m) e m c d? [.published] := by
  obtain ⟨i, hi, -⟩ := hw.exists_get?
  obtain ⟨report, hreport⟩ : ∃ report, n.report? e m = some report :=
    ⟨_, congrArg (Option.map _) hi⟩
  simp only [publish, hreport, handOver]
  split
  next hconnected => exact performs_note hw rfl (if_pos ⟨rfl, rfl⟩) hconnected
  next hconnected => exact performs_unnoticed hw hconnected

theorem performs_save (hw : n.OnCourse e m c d?) :
    n.Performs (n.save e m) e m c d? [.saved] := by
  obtain ⟨i, hi, -⟩ := hw.exists_get?
  have hsaved : (n.audience e m).notices .saved = i.isSaved := by
    simp only [Audience.notices, audience, hi, Option.any_some]
  simp only [save, hi]
  split
  next hs => exact performs_note hw rfl (if_pos ⟨rfl, rfl⟩) (hsaved.trans hs)
  next hs => exact performs_unnoticed hw (by rwa [hsaved])

theorem performs_announce (hw : n.OnCourse e m c d?) :
    n.Performs (n.announce e m) e m c d? [.updated c.phase c.present] := by
  obtain ⟨i, hi, rfl⟩ := hw.exists_get?
  have hheard : (n.audience e m).notices (.updated i.course.phase i.course.present) =
      (n.listeners.get m).isSome := rfl
  simp only [announce, hi, emit, Listeners.hearer?, Event.model]
  split
  next listener hl =>
    exact performs_note hw rfl (if_pos ⟨rfl, rfl⟩) (hheard.trans (by rw [hl]; rfl))
  next hl => exact performs_unnoticed hw (by rw [hheard, hl]; simp)

namespace Performs

theorem publish (h : n.Performs n₁ e m c d? ds) :
    n.Performs (n₁.publish e m) e m c d? (.published :: ds) :=
  h.trans (performs_publish h.onCourse)

theorem save (h : n.Performs n₁ e m c d? ds) :
    n.Performs (n₁.save e m) e m c d? (.saved :: ds) :=
  h.trans (performs_save h.onCourse)

theorem announce (h : n.Performs n₁ e m c d? ds) :
    n.Performs (n₁.announce e m) e m c d? (.updated c.phase c.present :: ds) :=
  h.trans (performs_announce h.onCourse)

theorem linksOf (h : n.Performs n₁ e m c d? ds) : n₁.linksOf e m = n.linksOf e m :=
  congrArg Audience.links h.audience

end Performs

/-! ## Changes of state -/

/-- The bindings that follow the state of an instance follow a value, and the instance does nothing
else meanwhile. -/
def Heralds (F : Follow) (n : Node) (e : UInt8) (m : Model) (w : Value) : Prop :=
  ∀ c d?, n.OnCourse e m c d? →
    n.Performs (F n e m w) e m c d? ((n.linksOf e m).reverse.map (.followed · w))

/-- If the source passes changes on, the bindings follow a value at the depth of a node. -/
def Passes (F : Follow) (n : Node) (e : UInt8) (m : Model) (w : Value) (s : Source) : Prop :=
  s.triggersBindings = true → ∀ n₁, n.Evolves n₁ → n₁.depth = n.depth → Heralds F n₁ e m w

theorem Passes.congr (h : Passes F n e m w s) (he : n.Evolves n₁) (hd : n₁.depth = n.depth) :
    Passes F n₁ e m w s :=
  fun hs n₂ he' hd' => h hs n₂ (he.trans he') (hd'.trans hd)

theorem Performs.passOn (h : n.Performs n₁ e m c d? ds) (hpass : Passes F n e m w s) :
    n.Performs (n₁.passOn F e m w s) e m c d? (heralds (n.linksOf e m) s w ++ ds) := by
  unfold Node.passOn heralds
  split
  next hs =>
    rw [← h.linksOf]
    exact h.trans (hpass hs n₁ h.evolves h.depth c d? h.onCourse)
  next => exact h

section Follow

variable (hpass : Passes F n e m w s)
include hpass

theorem performs_settle (hi : n.get? e m = some i) (ht : w.model = m) :
    n.Performs (n.settle F e m w s) e m (i.course.finish w)
      (n.timers.deadline? (transitionTimer e m)) (i.course.settleDeeds (n.linksOf e m) w s) := by
  simp only [settle, hi]
  have hset := (Performs.refl (onCourse_of_get? hi)).modify
    (f := fun i => { i with
      remaining := 0, delay := 0, stepping := .none, motion := none, target := w,
      edgeResolved := false })
    (fun j hj => congrArg (fun c : Course => { c with
      remaining := 0, delay := 0, stepping := .none, motion := none, target := w,
      edgeResolved := false }) hj)
    (fun _ => rfl)
    (evolves_modify (fun _ => rfl) (fun _ => .inl rfl) fun _ h =>
      ⟨h.present, ht, by simp [Stepping.none, Stepping.isActive], by simp⟩)
  have hshown := hset.modify (f := fun i => i.display w s n.now)
    (fun j hj => congrArg (fun c : Course => { c with present := w }) hj) (fun _ => rfl)
    (evolves_display (s := s) ht)
  have hedge : i.course.edgeResolved = i.edgeResolved := rfl
  rw [Course.settleDeeds, hedge]
  split
  next => exact hshown.publish.save.announce
  next =>
    have hpassed := (hshown.passOn hpass).publish.save.announce
    rwa [List.append_nil] at hpassed

theorem performs_embark (stepped : Bool) (hw : n.OnCourse e m c d?) (ht : w.model = m)
    (hp : 0 < t) :
    n.Performs (n.embark F e m w t s stepped) e m
      (if w.isImmediate then
        { c with present := w, edgeResolved := c.edgeResolved || s.triggersBindings } else c)
      (some (n.now + if stepped then n.config.stepInterval.toNat else t))
      (.updated c.phase (if w.isImmediate then w else c.present) ::
        if w.isImmediate then heralds (n.linksOf e m) s w else []) := by
  rw [embark]
  dsimp only
  generalize hfirst : (if stepped then n.config.stepInterval.toNat else t) = first
  have harm := (Performs.refl hw).arm first fun hi => by
    rw [← hfirst]
    split <;> assumption
  split
  next himm =>
    have hshown := harm.modify (f := fun i => i.display w s n.now)
      (fun j hj => congrArg (fun c : Course => { c with present := w }) hj) (fun _ => rfl)
      (evolves_display (s := s) ht)
    have hpassed := hshown.passOn hpass
    rw [List.append_nil, Node.passOn] at hpassed
    split
    next htr =>
      rw [if_pos htr] at hpassed
      rw [htr, Bool.or_true]
      exact (hpassed.modify (f := fun i => { i with edgeResolved := true })
        (fun j hj => congrArg (fun c : Course => { c with edgeResolved := true }) hj) (fun _ => rfl)
        (evolves_modify (fun _ => rfl) (fun _ => .inl rfl) fun _ h =>
          ⟨h.present, h.target, h.stepping, h.motion⟩)).announce
    next htr =>
      rw [if_neg htr] at hpassed
      rw [Bool.not_eq_true _ |>.mp htr, Bool.or_false]
      exact hpassed.announce
  next himm => exact harm.announce

theorem performs_program (hi : n.get? e m = some i) (ht : w.model = m) :
    n.Performs (n.program F e m w t d s) e m (i.course.enter w t d s)
      ((i.course.enterTime? n.config.stepInterval.toNat t d).map (n.now + ·))
      (i.course.enterDeeds (n.linksOf e m) w t d s) := by
  simp only [program, hi]
  have hset := (Performs.refl (onCourse_of_get? hi)).modify
    (f := fun i => { i with remaining := t, delay := d, source := s, target := w })
    (fun j hj => congrArg (fun c : Course => { c with
      remaining := t, delay := d, source := s, target := w }) hj)
    (fun _ => rfl)
    (evolves_modify (fun _ => rfl) (fun _ => .inl rfl) fun _ h =>
      ⟨h.present, ht, h.stepping, h.motion⟩)
  have hpass₁ := hpass.congr hset.evolves hset.depth
  split
  next hd =>
    have harm := hset.arm (TransitionTime.delayMs d) fun _ => by
      rw [TransitionTime.delayMs]
      omega
    simpa [Course.enter, Course.enterTime?, Course.enterDeeds, Course.phase, hd] using
      harm.announce
  next hd =>
    split
    next hp =>
      have hembark := hset.trans (performs_embark hpass₁ i.stepping.isActive (t := t)
        hset.onCourse ht hp)
      simp only [hset.linksOf, List.append_nil, Course.phase, if_neg hd, if_pos hp] at hembark
      simp only [Course.enter, Course.enterTime?, Course.enterDeeds, if_neg hd, if_pos hp,
        Option.map_some]
      exact hembark
    next hp =>
      have hstop := hset.cancel
      obtain ⟨j, hj, hjc, hjd⟩ := watch_eq_some hstop.onCourse.watch_of_none
      have hsettle := hstop.trans (performs_settle (hpass.congr hstop.evolves hstop.depth) hj ht)
      rw [hstop.linksOf, hjc, hjd, List.append_nil] at hsettle
      simp only [Course.enter, Course.enterTime?, Course.enterDeeds, if_neg hd, if_neg hp,
        Option.map_none]
      exact hsettle

end Follow

end Node

end MeshNode
