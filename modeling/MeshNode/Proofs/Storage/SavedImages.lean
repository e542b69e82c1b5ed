import MeshNode.Proofs.Node.NewNodes

/-! # The image saved last is current

An instance that is saved may be changed many times while it is busy. Whatever makes it idle, and
whatever changes a saved part of it later, saves it afterwards: at rest the image saved last is that
of the instance as it is, unless nothing was saved and nothing has changed.
-/

namespace MeshNode

def Call.NoResetOrRestore : Call → Prop
  | .reset | .restore _ => False
  | _ => True

def Effect.imageFor? (element : UInt8) (model : Model) : Effect → Option Image
  | .saved image => if image.element = element ∧ image.model = model then some image else none
  | _ => none

/-- An instance with its image at some time and the images of it that had been saved by then. -/
structure Archive where
  element : UInt8
  model : Model
  first : Image
  older : List Image

def Archive.Excludes (a : Archive) (e : UInt8) (m : Model) : Prop := (e, m) ≠ (a.element, a.model)

namespace Node

def images (n : Node) (e : UInt8) (m : Model) : List Image := n.log.filterMap (Effect.imageFor? e m)

/-- The instance is still saved and, asked strictly, it is busy or the latest image of it is
current. -/
def KeepsImage (n : Node) (a : Archive) (strict : Prop) : Prop :=
  ∃ i new, n.get? a.element a.model = some i ∧ i.isSaved = true ∧
    n.images a.element a.model = new ++ a.older ∧
    (strict → i.phase ≠ .idle ∨ new.headD a.first = .capture a.element a.model i)

variable {n n' : Node} {e : UInt8} {m : Model} {i : Instance} {a : Archive} {strict : Prop}
  {f : Instance → Instance} {v w : Value} {s : Source} {t d : Nat} {motion : Option Motion}
  {r : Request} {c : Envelope}

/-! ## Changing and saving an instance -/

theorem KeepsImage.note {x : Effect} (h : n.KeepsImage a strict)
    (hx : x.imageFor? a.element a.model = none) : (n.note x).KeepsImage a strict := by
  have hsame : (n.note x).images a.element a.model = n.images a.element a.model := by
    rw [images, Node.note, List.filterMap_cons, hx]
    rfl
  rwa [KeepsImage, hsame]

theorem KeepsImage.weaken {p : Prop} (h : n.KeepsImage a strict) (hp : p → strict) :
    n.KeepsImage a p := by
  obtain ⟨i, new, hi, hs, himages, hcurrent⟩ := h
  exact ⟨i, new, hi, hs, himages, fun h => hcurrent (hp h)⟩

/-- What is only asked of other instances. -/
theorem KeepsImage.loosen (h : n.KeepsImage a strict) (p : Prop) : n.KeepsImage a (strict ∧ p) :=
  h.weaken And.left

/-- A change of another instance, or of one that is current only later. -/
theorem KeepsImage.touch (h : n.KeepsImage a strict) (hstrict : strict → a.Excludes e m)
    (hs : ∀ i, i.isSaved = true → (f i).isSaved = true) : (n.modify e m f).KeepsImage a strict := by
  obtain ⟨i, new, hi, hsaved, himages, hcurrent⟩ := h
  by_cases hx : (a.element, a.model) = (e, m)
  · obtain ⟨rfl, rfl⟩ := Prod.mk.injEq .. ▸ hx
    exact ⟨f i, new, by rw [get?_modify_self, hi]; rfl, hs i hsaved, himages,
      fun h => absurd rfl (hstrict h)⟩
  · exact ⟨i, new, (get?_modify_of_ne hx).trans hi, hsaved, himages, hcurrent⟩

theorem KeepsImage.books (h : n.KeepsImage a strict)
    (hs : ∀ i, i.isSaved = true → (f i).isSaved = true)
    (hf : ∀ i, (f i).phase = i.phase ∧ Image.capture e m (f i) = .capture e m i) :
    (n.modify e m f).KeepsImage a strict := by
  obtain ⟨i, new, hi, hsaved, himages, hcurrent⟩ := h
  by_cases hx : (a.element, a.model) = (e, m)
  · obtain ⟨rfl, rfl⟩ := Prod.mk.injEq .. ▸ hx
    refine ⟨f i, new, by rw [get?_modify_self, hi]; rfl, hs i hsaved, himages, ?_⟩
    rwa [(hf i).1, (hf i).2]
  · exact ⟨i, new, (get?_modify_of_ne hx).trans hi, hsaved, himages, hcurrent⟩

theorem KeepsImage.busy (h : n.KeepsImage a (strict ∧ a.Excludes e m)) (hi : n.get? e m = some i)
    (hbusy : i.phase ≠ .idle) : n.KeepsImage a strict := by
  obtain ⟨j, new, hj, hsaved, himages, hcurrent⟩ := h
  refine ⟨j, new, hj, hsaved, himages, fun hstrict => ?_⟩
  by_cases hx : (e, m) = (a.element, a.model)
  · obtain ⟨rfl, rfl⟩ := Prod.mk.injEq .. ▸ hx
    obtain rfl := Option.some.inj (hj.symm.trans hi)
    exact .inl hbusy
  · exact hcurrent ⟨hstrict, hx⟩

theorem KeepsImage.absent (h : n.KeepsImage a (strict ∧ a.Excludes e m)) (hi : n.get? e m = none) :
    n.KeepsImage a strict := by
  obtain ⟨j, new, hj, hsaved, himages, hcurrent⟩ := h
  refine ⟨j, new, hj, hsaved, himages, fun hstrict => hcurrent ⟨hstrict, ?_⟩⟩
  intro hx
  obtain ⟨rfl, rfl⟩ := Prod.mk.injEq .. ▸ hx
  cases hj.symm.trans hi

theorem KeepsImage.save (h : n.KeepsImage a (strict ∧ a.Excludes e m)) :
    (n.save e m).KeepsImage a strict := by
  rw [Node.save]
  by_cases hx : (e, m) = (a.element, a.model)
  · obtain ⟨rfl, rfl⟩ := Prod.mk.injEq .. ▸ hx
    obtain ⟨i, new, hi, hsaved, himages, -⟩ := h
    have himages' : (n.note (.saved (.capture a.element a.model i))).images a.element a.model =
        .capture a.element a.model i :: new ++ a.older := by
      rw [List.cons_append, ← himages]
      simp [images, Node.note, Effect.imageFor?, Image.capture]
    simp only [hi, hsaved, if_true]
    exact ⟨i, _, hi, hsaved, himages', fun _ => .inr rfl⟩
  · have hstrict : n.KeepsImage a strict := by
      obtain ⟨i, new, hi, hs, himages, hcurrent⟩ := h
      exact ⟨i, new, hi, hs, himages, fun hstrict => hcurrent ⟨hstrict, hx⟩⟩
    split
    next i hi =>
      split
      · refine hstrict.note (if_neg ?_)
        rintro ⟨he, hm⟩
        exact hx (Prod.ext he hm)
      · exact hstrict
    · exact hstrict

theorem KeepsImage.arm (h : n.KeepsImage a strict) (timer : Timer) (k : Nat) :
    (n.arm timer k).KeepsImage a strict := h

theorem KeepsImage.cancel (h : n.KeepsImage a strict) (timer : Timer) :
    (n.cancel timer).KeepsImage a strict := h

/-! ## Telling the outside -/

section Telling

variable (h : n.KeepsImage a strict)
include h

theorem KeepsImage.emit (ev : Event) : (n.emit ev).KeepsImage a strict := by
  unfold Node.emit
  split
  · exact h.note rfl
  · exact h

theorem KeepsImage.handOver (out : Outbound) : (n.handOver out).KeepsImage a strict := by
  unfold Node.handOver
  split
  · exact h.note rfl
  · exact h

theorem KeepsImage.publish : (n.publish e m).KeepsImage a strict := by
  unfold Node.publish
  split
  · exact h.handOver _
  · exact h

theorem KeepsImage.sendStatus {dst appKey : UInt16} {unicast : Bool} :
    (n.sendStatus e m dst appKey unicast).KeepsImage a strict := by
  unfold Node.sendStatus
  split
  · exact h.handOver _
  · exact h

theorem KeepsImage.announce : (n.announce e m).KeepsImage a strict := by
  unfold Node.announce
  split
  · exact h.emit _
  · exact h

end Telling

theorem KeepsImage.foldl {α : Type} {g : Node → α → Node} {bs : List α} (h : n.KeepsImage a strict)
    (hg : ∀ n, KeepsImage n a strict → ∀ b ∈ bs, (g n b).KeepsImage a strict) :
    (bs.foldl g n).KeepsImage a strict :=
  List.foldlRecOn (motive := (KeepsImage · a strict)) bs g h hg

/-! ## Changes of state -/

theorem KeepsImage.display (h : n.KeepsImage a (strict ∧ a.Excludes e m)) :
    (n.display e m w s).KeepsImage a (strict ∧ a.Excludes e m) :=
  h.touch And.right fun _ hs => hs

section Follow

variable {follow : Follow} (hfollow : ∀ (strict : Prop) (n : Node) (e : UInt8) (m : Model)
  (v : Value), n.KeepsImage a strict → (follow n e m v).KeepsImage a strict)
include hfollow

theorem KeepsImage.passOn (h : n.KeepsImage a strict) :
    (n.passOn follow e m w s).KeepsImage a strict := by
  rw [Node.passOn]
  split
  · exact hfollow strict n e m w h
  · exact h

theorem KeepsImage.settle (h : n.KeepsImage a (strict ∧ a.Excludes e m)) :
    (n.settle follow e m w s).KeepsImage a strict := by
  rw [Node.settle]
  split
  next hi => exact h.absent hi
  next i hi =>
    have hset := h.touch And.right (f := fun i => { i with
      remaining := 0, delay := 0, stepping := .none, motion := none, target := w,
      edgeResolved := false }) fun _ hs => hs
    refine announce (save (publish ?_))
    split
    · exact hset.display
    · exact hset.display.passOn hfollow

theorem KeepsImage.embark (h : n.KeepsImage a (strict ∧ a.Excludes e m)) (hi : n.get? e m = some i)
    (hbusy : i.phase ≠ .idle) {b : Bool} : (n.embark follow e m w t s b).KeepsImage a strict := by
  rw [Node.embark]
  refine announce ?_
  have hshown (k : Nat) :
      ((n.arm (transitionTimer e m) k).display e m w s).KeepsImage a strict := by
    have hget : ((n.arm (transitionTimer e m) k).display e m w s).get? e m =
        some (i.display w s n.now) := by
      rw [Node.display, get?_modify_self, show (n.arm _ k).get? e m = _ from hi]
      rfl
    exact (h.arm _ k).display.busy hget hbusy
  split
  · dsimp only
    split
    · exact (hfollow strict _ e m w (hshown _)).books (fun _ hs => hs) fun _ => ⟨rfl, rfl⟩
    · exact hshown _
  · exact h.busy hi hbusy

theorem KeepsImage.program (h : n.KeepsImage a (strict ∧ a.Excludes e m)) :
    (n.program follow e m w t d s).KeepsImage a strict := by
  rw [Node.program]
  split
  next hi => exact h.absent hi
  next i hi =>
    have hset := h.touch And.right (f := fun i =>
      { i with remaining := t, delay := d, source := s, target := w }) fun _ hs => hs
    have hget : (n.modify e m fun i =>
        { i with remaining := t, delay := d, source := s, target := w }).get? e m =
          some { i with remaining := t, delay := d, source := s, target := w } := by
      rw [get?_modify_self, hi]
      rfl
    have hbusy (h : 0 < d ∨ 0 < t) : Instance.phase
        { i with remaining := t, delay := d, source := s, target := w } ≠ .idle := by
      rwa [ne_eq, Instance.phase_eq_idle_iff, not_not]
    dsimp only
    split
    next hd => exact ((hset.busy hget (hbusy (.inl hd))).arm _ _).announce
    next hd =>
      split
      next ht => exact hset.embark hfollow hget (hbusy (.inr ht))
      next ht => exact (hset.cancel _).settle hfollow

theorem KeepsImage.start (h : n.KeepsImage a (strict ∧ a.Excludes e m)) :
    (n.start follow e m v t d s motion).KeepsImage a strict := by
  rw [Node.start]
  split
  next hi => exact h.absent hi
  next i hi =>
    dsimp only
    refine program hfollow (note ?_ rfl)
    exact h.books (fun _ hs => hs) fun _ => ⟨rfl, rfl⟩

theorem KeepsImage.carryOut (h : n.KeepsImage a strict) :
    (n.carryOut follow r).KeepsImage a strict := by
  rw [Node.carryOut]
  split
  · exact (h.loosen _).start hfollow
  · exact h.emit _

end Follow

theorem KeepsImage.closedUnderBindings (a : Archive) :
    ClosedUnderBindings fun n n' => ∀ strict, n.KeepsImage a strict → n'.KeepsImage a strict where
  refl _ _ := id
  trans h h' strict := h' strict ∘ h strict
  note _ _ _ _ _ h := h.note rfl
  depth _ _ _ h := h
  carryOut hfollow _ _ _ h := h.carryOut fun strict n e m v => hfollow n e m v strict

theorem KeepsImage.follows (strict : Prop) (n : Node) (e : UInt8) (m : Model) (v : Value)
    (h : n.KeepsImage a strict) : (n.follow e m v).KeepsImage a strict :=
  (KeepsImage.closedUnderBindings a).follow n e m v strict h

/-! ## Progress -/

theorem KeepsImage.visit (h : n.KeepsImage a (strict ∧ a.Excludes e m)) :
    (n.visit e m w s).KeepsImage a (strict ∧ a.Excludes e m) :=
  h.display.passOn .follows

section Progress

variable (h : n.KeepsImage a strict)
include h

theorem KeepsImage.halt : (n.halt e m).KeepsImage a strict := by
  rw [Node.halt]
  split
  · exact h
  · split
    · exact (h.cancel _).books (fun _ hs => hs) fun _ => ⟨rfl, rfl⟩
    · refine settle .follows (loosen ?_ _)
      exact (h.cancel _).books (fun _ hs => hs) fun _ => ⟨rfl, rfl⟩

theorem KeepsImage.stepOn : (n.stepOn e m i).KeepsImage a strict := by
  have hset := (h.loosen (a.Excludes e m)).books (e := e) (m := m)
    (f := fun i => { i with stepping := i.stepping.next }) (fun _ hs => hs) fun _ => ⟨rfl, rfl⟩
  have hvisit := hset.visit (w := i.present.shift i.stepping.increment) (s := i.source)
  rw [Node.stepOn]
  split
  · exact hvisit.settle .follows
  · exact (hvisit.program .follows).publish

theorem KeepsImage.moveOn {k : Motion} : (n.moveOn e m i k).KeepsImage a strict := by
  rw [Node.moveOn]
  split
  · exact (h.loosen _).settle .follows
  · exact ((h.loosen _).visit.program .follows).publish

theorem KeepsImage.endDelay : (n.endDelay e m i).KeepsImage a strict := by
  have hset := (h.loosen (a.Excludes e m)).touch And.right
    (f := fun i => { i with delay := 0, pendingReply := none }) fun _ hs => hs
  have hrun := hset.program (w := i.target) (t := i.remaining) (d := 0) (s := i.source) .follows
  rw [Node.endDelay]
  split
  · exact hrun.sendStatus
  · exact hrun

theorem KeepsImage.onTransition : (n.onTransition e m).KeepsImage a strict := by
  rw [Node.onTransition]
  split
  · exact h
  · split
    · exact h.endDelay
    · split
      · split
        · exact h.moveOn
        · split
          · exact h.stepOn
          · exact (h.loosen _).settle .follows
      · exact h

/-! ## Messages -/

theorem KeepsImage.remember {k : UInt8} {ack : Bool} :
    (n.remember c m k ack).KeepsImage a strict := by
  refine arm ?_ _ _
  exact h.books (fun _ hs => hs) fun _ => ⟨rfl, rfl⟩

theorem KeepsImage.answerUnlessDelayed : (n.answerUnlessDelayed c m).KeepsImage a strict := by
  rw [Node.answerUnlessDelayed]
  split
  · exact h
  · split
    · exact h
    · split
      · refine sendStatus ?_
        exact h.books (fun _ hs => hs) fun _ => ⟨rfl, rfl⟩
      · exact h

theorem KeepsImage.startForClient : (n.startForClient e v t d motion).KeepsImage a strict :=
  (h.loosen _).start .follows

theorem KeepsImage.onSet {p : Params Value} {ack : Bool} :
    (n.onSet c i p ack).1.KeepsImage a strict := by
  rw [Node.onSet]
  split
  · exact h
  · exact h.remember.startForClient.answerUnlessDelayed

theorem KeepsImage.onDelta {p : Params Int32} {ack : Bool} :
    (n.onDelta c i p ack).1.KeepsImage a strict := by
  have hset := h.books (e := c.element) (m := .level)
    (f := fun j => { j with deltaOrigin := some (deltaOrigin i c.src p.tid) })
    (fun _ hs => hs) fun _ => ⟨rfl, rfl⟩
  exact hset.remember.startForClient.answerUnlessDelayed

theorem KeepsImage.onMove {p : Params Level} {ack : Bool} :
    (n.onMove c i p ack).1.KeepsImage a strict := by
  rw [Node.onMove]
  split
  · exact h
  · refine answerUnlessDelayed ?_
    split
    · exact h.remember.halt
    · split
      · exact h.remember.startForClient
      · exact h.remember

theorem KeepsImage.store {ack : Bool} : (n.store c v ack).1.KeepsImage a strict := by
  have hstored : (n.stored c.element v).KeepsImage a strict := by
    refine emit (save ?_) _
    exact (h.loosen _).touch And.right fun _ hs => hs
  rw [store_eq]
  dsimp only
  split
  · exact hstored.sendStatus
  · exact hstored

theorem KeepsImage.withParams {α : Type} {p : Except (List Violation) α} {act : α → Node × Outcome}
    (hact : ∀ b, (act b).1.KeepsImage a strict) : (n.withParams p act).1.KeepsImage a strict := by
  unfold Node.withParams
  split
  · exact hact _
  · exact h

theorem KeepsImage.receive (c : Envelope) (message : Message) :
    (n.receive c message).1.KeepsImage a strict := by
  rw [Node.receive]
  split
  · exact h
  · unfold process
    split
    · exact h.sendStatus
    · exact h.withParams fun _ => h.onSet
    · exact h.withParams fun _ => h.onSet
    · exact h.withParams fun _ => h.onSet
    · exact h.withParams fun _ => h.store
    · exact h.withParams fun _ => h.store
    · exact h.withParams fun _ => h.onDelta
    · exact h.withParams fun _ => h.onMove

end Progress

/-! ## Calls and steps -/

theorem KeepsImage.saveAll {ms : List Model}
    (h : n.KeepsImage a (strict ∧ ∀ m ∈ ms, a.Excludes e m)) :
    (ms.foldl (fun n m => n.save e m) n).KeepsImage a strict := by
  induction ms generalizing n with
  | nil => exact h.weaken fun hstrict => ⟨hstrict, by simp⟩
  | cons m ms ih =>
    refine ih (save (h.weaken ?_))
    rintro ⟨⟨hstrict, hms⟩, hm⟩
    exact ⟨hstrict, List.forall_mem_cons.mpr ⟨hm, hms⟩⟩

theorem KeepsImage.storeScene (h : n.KeepsImage a strict) (e : UInt8) (slot : Nat) :
    (n.storeScene e slot).1.KeepsImage a strict := by
  rcases storeScene_cases n e slot with ⟨heq, -⟩ | ⟨models, heq⟩
  · rwa [heq]
  · rw [heq]
    refine saveAll ((h.loosen _).foldl fun n h m hm => ?_)
    exact h.touch (fun hall => hall.2 m hm) fun _ hs => hs

theorem KeepsImage.setLightRange (h : n.KeepsImage a strict) (e : UInt8) (lo hi : Lightness) :
    (n.setLightRange e lo hi).1.KeepsImage a strict := by
  rcases setLightRange_cases n e lo hi with ⟨status, -, heq⟩ | ⟨i, light, hget, -, -, heq⟩
  · rw [heq]
    exact h.emit _
  · have hset := (h.loosen (a.Excludes e .lightness)).touch And.right
      (f := fun i => { i with light }) fun _ hs => hs
    rcases heq with heq | ⟨l, heq⟩
    · rw [heq]
      exact hset.save.emit _
    · rw [heq]
      simp only [Node.request, Node.carryOut, Request.application, Value.model,
        check_retuned hget]
      exact hset.start .follows

theorem KeepsImage.handle {x : Call} (h : n.KeepsImage a strict) (hx : x.NoResetOrRestore) :
    (n.handle x).KeepsImage a strict := by
  cases x with
  | receive c message => exact h.receive c message
  | request r => exact h.carryOut .follows
  | query e m => exact h.emit _
  | publish e m => exact h.publish
  | publishPeriodically e m =>
    rw [Node.handle, publishPeriodically_fst]
    exact h.publish
  | sendStatus e m dst appKey unicast => exact h.sendStatus
  | storeScene e slot => exact h.storeScene e slot
  | recallScene e slot transition =>
    rcases recallScene_cases n e slot transition with ⟨heq, -⟩ | ⟨requests, -, heq⟩
    · rwa [Node.handle, heq]
    · rw [Node.handle, heq]
      exact h.foldl fun _ h _ _ => h.carryOut .follows
  | powerUp => exact h.foldl fun _ h _ _ => .follows _ _ _ _ _ h
  | setLightDefault e l =>
    simp only [Node.handle, setLightDefault]
    split
    · refine emit (save ?_) _
      exact (h.loosen _).touch And.right fun _ hs => hs
    · exact h.emit _
  | setLightRange e lo hi => exact h.setLightRange e lo hi
  | reset => exact hx.elim
  | restore s => exact hx.elim
  | listen m name => exact h
  | keepSaved e m => exact h.books (fun _ _ => rfl) fun _ => ⟨rfl, rfl⟩
  | bind link rule => exact h
  | bindLightnessToLevel lightness level => exact h
  | bindLightnessToOnOff lightness onOff => exact h
  | bindOnOffToOnPowerUp power onOff => exact h
  | bindLightnessToOnPowerUp power lightness => exact h

theorem KeepsImage.step (h : n.KeepsImage a strict)
    (hs : Step (fun _ => Call.NoResetOrRestore) n n') : n'.KeepsImage a strict := by
  cases hs with
  | call x hx => exact h.handle hx
  | @expiry horizon timer ts hp =>
    have hts : KeepsImage { n with timers := ts } a strict := h
    obtain ⟨e, m, rfl | rfl⟩ := timer_cases timer
    · exact hts.onTransition
    · exact hts.books (fun _ hs => hs) fun _ => ⟨rfl, rfl⟩
  | passage _ => exact h

theorem KeepsImage.steps (h : n.KeepsImage a strict)
    (hs : Steps (fun _ => Call.NoResetOrRestore) n n') : n'.KeepsImage a strict := by
  induction hs with
  | refl => exact h
  | tail _ hstep ih => exact ih.step hstep

/-- At rest a saved instance is as it was and was not saved since, or it was saved as it is and not
again. -/
theorem image_current {ops : List Operation} {j : Instance} (hi : n.get? e m = some i)
    (hsaved : i.isSaved = true)
    (hops : ∀ x, .call x ∈ ops → x.NoResetOrRestore) (hj : (n.run ops).get? e m = some j)
    (hidle : j.phase = .idle) :
    (n.run ops).images e m = n.images e m ∧ Image.capture e m j = .capture e m i ∨
      ∃ rest, (n.run ops).images e m = .capture e m j :: rest ++ n.images e m := by
  have hstart : n.KeepsImage ⟨e, m, .capture e m i, n.images e m⟩ True :=
    ⟨i, [], hi, hsaved, rfl, fun _ => .inr rfl⟩
  have hsteps : Steps (fun _ => Call.NoResetOrRestore) n (n.run ops) :=
    run_steps (admits_of_forall (fun _ x hx => hops x hx) n)
  obtain ⟨k, new, hk, -, himages, hcurrent⟩ := hstart.steps hsteps
  obtain rfl := Option.some.inj (hk.symm.trans hj)
  have hhead := (hcurrent trivial).resolve_left fun hbusy => hbusy hidle
  cases new with
  | nil => exact .inl ⟨himages, hhead.symm⟩
  | cons image rest =>
    obtain rfl : image = .capture e m k := hhead
    exact .inr ⟨rest, himages⟩

theorem image_current_soloLevel :
    ∃ n j rest, n = soloLevel.run [.call (.keepSaved 0 .level),
        .call (.request (.application 0 (.level 3000) 3000 0)), .advance 5000] ∧
      n.get? 0 .level = some j ∧ j.present = .level 3000 ∧
      n.images 0 .level = .capture 0 .level j :: rest := by
  obtain ⟨n, hn⟩ : ∃ n, n = soloLevel.run [.call (.keepSaved 0 .level)] := ⟨_, rfl⟩
  have hsaved : (n.get? 0 .level).map Instance.isSaved = some true := by
    rw [hn]
    rfl
  obtain ⟨i, hi, hsaved⟩ := Option.map_eq_some_iff.mp hsaved
  have hend : (n.run [.call (.request (.application 0 (.level 3000) 3000 0)),
      .advance 5000]).get? 0 .level ≠ none ∧ ∀ j ∈ (n.run
        [.call (.request (.application 0 (.level 3000) 3000 0)), .advance 5000]).get? 0 .level,
          j.phase = .idle ∧ j.present = .level 3000 := by
    rw [hn]
    decide +kernel
  obtain ⟨j, hj⟩ := Option.ne_none_iff_exists'.mp hend.1
  obtain ⟨hidle, hpresent⟩ := hend.2 j hj
  have hstart : i.present ≠ .level 3000 := by
    have hzero : (n.get? 0 .level).map Instance.present = some (.level 0) := by
      rw [hn]
      rfl
    rw [hi] at hzero
    rw [Option.some.inj hzero]
    decide
  rcases image_current hi hsaved (by simp [Call.NoResetOrRestore]) hj hidle with
    ⟨-, hsame⟩ | ⟨rest, himages⟩
  · exact absurd ((congrArg Image.present hsame).symm.trans hpresent) hstart
  · refine ⟨_, j, rest ++ n.images 0 .level, ?_, hj, hpresent, himages⟩
    rw [hn]
    rfl

/-- A level that is saved only once it has changed is at rest with no image of it. -/
theorem unsaved_soloLevel :
    ∃ n i j, soloLevel.get? 0 .level = some i ∧
      n = soloLevel.run [.call (.request (.application 0 (.level 5) 0 0)),
        .call (.keepSaved 0 .level)] ∧ n.get? 0 .level = some j ∧ j.isSaved = true ∧
      j.phase = .idle ∧ n.images 0 .level = [] ∧ j.present ≠ i.present :=
  ⟨_, _, _, rfl, rfl, rfl, rfl, rfl, rfl, by decide +kernel⟩

end Node

end MeshNode
