import MeshNode.Proofs.Storage.Histories

/-! # How long histories are

A history is as long as it was when the instance was built, or when a snapshot was last loaded into
it, and longer by the changes since then as far as its own limit allows. The limit of a node binds
the histories that it begins and those that it loads if they respect it.
-/

namespace MeshNode

namespace History

variable {h h' : History} {limit : UInt64} {k : Nat}

def lengthAfter (h : History) (k : Nat) : Nat :=
  if k = 0 ∨ h.limit = 0 then h.changes.length else min h.limit.toNat (h.changes.length + k)

/-- The history holds no more changes than a limit, and never will. -/
structure IsBounded (h : History) (limit : UInt64) : Prop where
  limit_le : h.limit ≤ limit
  length_le : h.changes.length ≤ limit.toNat

theorem limit_record (h : History) (w : Change) : (h.record w).limit = h.limit := by
  unfold record
  split <;> rfl

theorem length_record (h : History) (w : Change) :
    (h.record w).changes.length = h.lengthAfter 1 := by
  unfold record lengthAfter
  by_cases hzero : h.limit = 0
  · rw [if_pos hzero, if_pos (.inr hzero)]
  · have hpos : 0 < h.limit.toNat := Nat.pos_of_ne_zero fun h0 => hzero (UInt64.toNat_inj.mp h0)
    rw [if_neg hzero, if_neg (by simp [hzero]), List.length_append, List.length_drop,
      List.length_singleton]
    omega

theorem lengthAfter_succ (hlimit : h'.limit = h.limit)
    (hlen : h'.changes.length = h.lengthAfter k) : h'.lengthAfter 1 = h.lengthAfter (k + 1) := by
  simp only [lengthAfter, hlimit, hlen, Nat.add_one_ne_zero, false_or]
  by_cases hzero : h.limit = 0
  · simp only [hzero, or_true, if_true]
  · simp only [hzero, or_false, if_false]
    split <;> omega

theorem IsBounded.lengthAfter_le (hf : h.IsBounded limit) (k : Nat) :
    h.lengthAfter k ≤ limit.toNat := by
  unfold lengthAfter
  split
  · exact hf.length_le
  · exact (Nat.min_le_left ..).trans (UInt64.le_iff_toNat_le.mp hf.limit_le)

theorem isBounded_empty (limit : UInt64) : (empty limit).IsBounded limit :=
  ⟨UInt64.le_refl limit, Nat.zero_le _⟩

end History

namespace Node

variable {n : Node} {e : UInt8} {m : Model}

theorem shown?_loaded {image : Image} (hh : n.hosts image.element image.model = true) :
    (n.loaded image).shown? image.element image.model = some (image.present, image.history) := by
  obtain ⟨i, hi⟩ := hosts_iff.mp hh
  have hi' : ((n.cancel (transitionTimer image.element image.model)).cancel
      (transactionTimer image.element image.model)).get? image.element image.model = some i := hi
  rw [shown?, loaded, get?_modify_self, hi']
  rfl

theorem shown?_loaded_of_ne {image : Image} (hx : (image.element, image.model) ≠ (e, m)) :
    (n.loaded image).shown? e m = n.shown? e m := by
  rw [shown?, loaded, get?_modify_of_ne (Ne.symm hx)]
  rfl

def Takes (n : Node) (e : UInt8) (m : Model) (s : Snapshot) : Prop :=
  (s.image.element, s.image.model) = (e, m) ∧ (n.restore s).toOption.isSome = true

instance (n : Node) (e : UInt8) (m : Model) (s : Snapshot) : Decidable (n.Takes e m s) :=
  inferInstanceAs (Decidable (_ ∧ _))

theorem shown?_restore (n : Node) (s : Snapshot) (e : UInt8) (m : Model) :
    (n.handle (.restore s)).shown? e m =
      if n.Takes e m s then some (s.image.present, s.image.history) else n.shown? e m := by
  rcases restore_cases n s with ⟨hno, heq⟩ | ⟨-, hh, hok, heq⟩
  · have hnot : ¬ n.Takes e m s := by
      rintro ⟨-, hsome⟩
      cases hr : n.restore s with
      | error err => simp [hr, Except.toOption] at hsome
      | ok n' => exact hno n' hr
    rw [heq, if_neg hnot]
  · rw [heq]
    by_cases hx : (s.image.element, s.image.model) = (e, m)
    · obtain ⟨rfl, rfl⟩ := Prod.mk.injEq .. ▸ hx
      have htakes : n.Takes s.image.element s.image.model s := ⟨rfl, by rw [hok]; rfl⟩
      rw [if_pos htakes, shown?_loaded hh]
    · rw [if_neg fun htakes : n.Takes e m s => hx htakes.1, shown?_loaded_of_ne hx]

end Node

namespace Moment

variable {P : Node → Call → Prop} {e : UInt8} {m : Model} {c₀ c c' : Moment} {h h' : History}
  {k : Nat}

/-- The history that is loaded into an instance next. -/
def loads? (c : Moment) (e : UInt8) (m : Model) : Option History :=
  match c.agenda with
  | .call (.restore s) :: _ =>
    if c.node.Takes e m s then some s.image.history else none
  | _ => none

/-- The history that an instance began with or last had loaded, and the number of changes that were
written to its present value since then. -/
inductive Since (P : Node → Call → Prop) (e : UInt8) (m : Model) (c₀ : Moment) :
    Moment → History → Nat → Prop where
  | start {v : Value} {h : History} (hv : c₀.node.shown? e m = some (v, h)) : Since P e m c₀ c₀ h 0
  | still {c c' : Moment} {h : History} {k : Nat} (hs : Since P e m c₀ c h k) (hc : Next P c c')
    (hl : c.loads? e m = none) (hsame : c'.node.present? e m = c.node.present? e m) :
    Since P e m c₀ c' h k
  | write {c c' : Moment} {h : History} {k : Nat} (hs : Since P e m c₀ c h k) (hc : Next P c c')
    (hl : c.loads? e m = none) (hne : c'.node.present? e m ≠ c.node.present? e m) :
    Since P e m c₀ c' h (k + 1)
  | load {c c' : Moment} {h h' : History} {k : Nat} (hs : Since P e m c₀ c h k) (hc : Next P c c')
    (hl : c.loads? e m = some h') : Since P e m c₀ c' h' 0

/-! ## From one moment to the next -/

theorem shown?_next_cases (hc : Next P c c') (e : UInt8) (m : Model) :
    (∃ v h, c.loads? e m = some h ∧ c'.node.shown? e m = some (v, h)) ∨
      c.loads? e m = none ∧ (c'.node.shown? e m = c.node.shown? e m ∨
        ∃ v h w x, v ≠ w ∧ c.node.shown? e m = some (v, h) ∧
          c'.node.shown? e m = some (w, h.record x)) := by
  cases hc with
  | call | expiry | passage => exact .inr ⟨rfl, .inl rfl⟩
  | work n j js =>
    by_cases hj : ∃ s, j = .call (.restore s)
    · obtain ⟨s, rfl⟩ := hj
      have hshown := n.shown?_restore s e m
      split at hshown
      next htakes => exact .inl ⟨_, _, if_pos htakes, hshown⟩
      next hnot => exact .inr ⟨if_neg hnot, .inl hshown⟩
    · have hrestores : (Moment.mk n [j]).RestoresNothing := by
        intro s hmem
        exact hj ⟨s, (List.mem_singleton.mp hmem).symm⟩
      have hnone : (Moment.mk n (j :: js)).loads? e m = none := by
        unfold loads?
        split
        next s _ heq => exact absurd ⟨s, (List.cons.inj heq).1⟩ hj
        next => rfl
      refine .inr ⟨hnone, ?_⟩
      rcases shown?_next (P := P) hrestores (.work n j []) with hsame | ⟨v, h, w, s, hne, -, hv, hw⟩
      · exact .inl hsame
      · exact .inr ⟨v, h, w, _, hne, hv, hw⟩

/-- A history with some changes more than another. -/
def Grown (e : UInt8) (m : Model) (h : History) (k : Nat) (c : Moment) : Prop :=
  ∃ v h', c.node.shown? e m = some (v, h') ∧ h'.limit = h.limit ∧
    h'.changes.length = h.lengthAfter k

theorem Since.grown (hs : Since P e m c₀ c h k) : Grown e m h k c := by
  -- What is shown stays, is recorded as one more change, or begins anew with what is loaded.
  induction hs with
  | start hv => exact ⟨_, _, hv, rfl, rfl⟩
  | still hs hc hl hsame ih =>
    obtain ⟨v, h', hv, hlimit, hlen⟩ := ih
    rcases shown?_next_cases hc e m with ⟨_, _, hl', -⟩ | ⟨-, hshown | ⟨v₁, h₁, w, x, hne, hv₁, hw⟩⟩
    · cases hl.symm.trans hl'
    · exact ⟨v, h', hshown.trans hv, hlimit, hlen⟩
    · rw [Node.present?_of_shown? hv₁, Node.present?_of_shown? hw] at hsame
      exact absurd (Option.some.inj hsame).symm hne
  | write hs hc hl hne ih =>
    obtain ⟨v, h', hv, hlimit, hlen⟩ := ih
    rcases shown?_next_cases hc e m with ⟨_, _, hl', -⟩ | ⟨-, hshown | ⟨v₁, h₁, w, x, -, hv₁, hw⟩⟩
    · cases hl.symm.trans hl'
    · exact absurd (Node.present?_congr hshown) hne
    · obtain ⟨rfl, rfl⟩ := Prod.mk.injEq .. ▸ Option.some.inj (hv₁.symm.trans hv)
      refine ⟨w, _, hw, (History.limit_record _ _).trans hlimit, ?_⟩
      rw [History.length_record, History.lengthAfter_succ hlimit hlen]
  | load hs hc hl ih =>
    rcases shown?_next_cases hc e m with ⟨v, h₁, hl', hv⟩ | ⟨hl', -⟩
    · obtain rfl := Option.some.inj (hl'.symm.trans hl)
      exact ⟨v, _, hv, rfl, rfl⟩
    · cases hl.symm.trans hl'

/-- There are no gaps: whatever happens, the instance has a history that was begun or loaded. -/
theorem exists_since (hc : Later P c₀ c) {v : Value} (hv : c₀.node.shown? e m = some (v, h)) :
    ∃ h k, Since P e m c₀ c h k := by
  induction hc with
  | refl => exact ⟨h, 0, .start hv⟩
  | @tail c c' _ hc ih =>
    obtain ⟨h, k, hs⟩ := ih
    cases hl : c.loads? e m with
    | some h' => exact ⟨h', 0, hs.load hc hl⟩
    | none =>
      by_cases hsame : c'.node.present? e m = c.node.present? e m
      · exact ⟨h, k, hs.still hc hl hsame⟩
      · exact ⟨h, k + 1, hs.write hc hl hsame⟩

/-! ## Where histories come from -/

theorem Since.later (hs : Since P e m c₀ c h k) : Later P c₀ c := by
  induction hs with
  | start => exact .refl
  | still _ hc _ _ ih | write _ hc _ _ ih | load _ hc _ ih => exact ih.tail hc

theorem called_of_later {n : Node} {x : Call} (hc : Later P ⟨n, []⟩ c) (hx : .call x ∈ c.agenda) :
    ∃ n', P n' x := by
  induction hc with
  | refl => cases hx
  | tail _ hc ih =>
    cases hc with
    | work n j js =>
      rcases List.mem_append.mp hx with hx | hx
      · exact absurd hx (call_notMem_begin n j x)
      · exact ih (List.mem_cons_of_mem _ hx)
    | call y hy =>
      obtain rfl : x = y := by simpa using hx
      exact ⟨_, hy⟩
    | expiry | passage => simp at hx

theorem exists_call_of_loads? (hl : c.loads? e m = some h) : ∃ s, .call (.restore s) ∈ c.agenda ∧
    (s.image.element, s.image.model) = (e, m) ∧ s.image.history = h := by
  unfold loads? at hl
  split at hl
  next s js heq =>
    split at hl
    next htakes =>
      exact ⟨s, heq ▸ List.mem_cons_self, htakes.1, Option.some.inj hl⟩
    next => cases hl
  next => cases hl

end Moment

namespace Node

open Moment

variable {n : Node} {e : UInt8} {m : Model} {limit : UInt64}

/-- The call loads no history of an instance that does not fit a limit. -/
def LoadsBounded (e : UInt8) (m : Model) (limit : UInt64) (_ : Node) (x : Call) : Prop :=
  ∀ s, x = .restore s → (s.image.element, s.image.model) = (e, m) → s.image.history.IsBounded limit

theorem isBounded_of_since {c : Moment} {h : History} {k : Nat}
    (hn : ∀ v h, n.shown? e m = some (v, h) → h.IsBounded limit)
    (hs : Since (LoadsBounded e m limit) e m ⟨n, []⟩ c h k) : h.IsBounded limit := by
  induction hs with
  | start hv => exact hn _ _ hv
  | still _ _ _ _ ih | write _ _ _ _ ih => exact ih
  | load hs hc hl ih =>
    obtain ⟨s, hmem, hx, rfl⟩ := exists_call_of_loads? hl
    obtain ⟨_, hbounded⟩ := called_of_later hs.later hmem
    exact hbounded s rfl hx

theorem IsBuilt.history_eq (hn : n.IsBuilt) {v : Value} {h : History}
    (hv : n.shown? e m = some (v, h)) : h = .empty n.config.historyLimit := by
  obtain ⟨i, hi, heq⟩ := Option.map_eq_some_iff.mp hv
  obtain ⟨-, rfl⟩ := Prod.mk.injEq .. ▸ heq
  exact hn.holdsPlanned (holdsOfPlanned_history n.config) hi

/-- At every moment of a run, whatever is loaded on the way, a history is as long as the one that
the instance was built with or last had loaded and the changes since then make it. So it stays
within the limit of the node in every run in which only histories that fit the limit are loaded into
the instance. -/
theorem history_filled (hn : n.IsBuilt) (e : UInt8) (m : Model) :
    (∀ ops, n.hosts e m = true →
      ∃ h k, Since (fun _ _ => True) e m ⟨n, []⟩ ⟨n.run ops, []⟩ h k) ∧
    (∀ c h k, Since (fun _ _ => True) e m ⟨n, []⟩ c h k → ∀ i, c.node.get? e m = some i →
      i.history.changes.length = h.lengthAfter k) ∧
    ∀ ops, (∀ s, .call (.restore s) ∈ ops → (s.image.element, s.image.model) = (e, m) →
        s.image.history.IsBounded n.config.historyLimit) →
      ∀ i, (n.run ops).get? e m = some i →
        i.history.changes.length ≤ n.config.historyLimit.toNat := by
  have hlength {P : Node → Call → Prop} {c : Moment} {h : History} {k : Nat}
      (hs : Since P e m ⟨n, []⟩ c h k) {i : Instance} (hi : c.node.get? e m = some i) :
      i.history.changes.length = h.lengthAfter k := by
    obtain ⟨v, h', hv, -, hlen⟩ := hs.grown
    rw [shown?, hi] at hv
    obtain ⟨-, rfl⟩ := Prod.mk.injEq .. ▸ Option.some.inj hv
    exact hlen
  refine ⟨fun ops hh => ?_, fun c h k hs i hi => hlength hs hi, fun ops hops i hi => ?_⟩
  · obtain ⟨i, hi⟩ := hosts_iff.mp hh
    have hv : n.shown? e m = some (i.present, i.history) := by rw [shown?, hi]; rfl
    exact exists_since (later_of_run _ ops) hv
  · have hadmits : n.Admits (LoadsBounded e m n.config.historyLimit) ops := by
      refine admits_of_forall (fun _ x hx s hs hxs => hops s ?_ hxs) n
      exact hs ▸ hx
    have hlater := later_run hadmits
    have hhosts := hosts_congr (run_precedes hn.sound ops).shape e m
    obtain ⟨j, hj⟩ := hosts_iff.mp (hhosts.symm.trans (hosts_iff.mpr ⟨i, hi⟩))
    have hv : n.shown? e m = some (j.present, j.history) := by rw [shown?, hj]; rfl
    obtain ⟨h, k, hs⟩ := exists_since hlater hv
    have hbounded : h.IsBounded n.config.historyLimit :=
      isBounded_of_since (fun v h hv => hn.history_eq hv ▸ History.isBounded_empty _) hs
    rw [hlength hs hi]
    exact hbounded.lengthAfter_le k

/-- A level that keeps two changes takes over one and is set twice more. -/
theorem history_filled_briefLevel :
    let s : Snapshot := .ofImage "level" .epoch
      ⟨0, .level, .level 7, .level 7, [], .initial, ⟨[⟨.level 3, .level 7, 50, .client⟩], 2⟩⟩
    let ops : List Operation := [.call (.restore s),
      .call (.request (.application 0 (.level 10) 0 0)), .advance 100,
      .call (.request (.application 0 (.level 20) 0 0))]
    briefLevel.IsBuilt ∧ briefLevel.hosts 0 .level = true ∧
      (∀ s', .call (.restore s') ∈ ops → (s'.image.element, s'.image.model) = (0, .level) →
        s'.image.history.IsBounded 2) ∧
      ∃ h k i, Since (fun _ _ => True) 0 .level ⟨briefLevel, []⟩ ⟨briefLevel.run ops, []⟩ h k ∧
        (briefLevel.run ops).get? 0 .level = some i ∧
        i.history.changes.length = h.lengthAfter k ∧ i.history.changes.length ≤ 2 := by
  intro s ops
  have hhosts : briefLevel.hosts 0 .level = true := by decide
  have hops : ∀ s', .call (.restore s') ∈ ops → (s'.image.element, s'.image.model) = (0, .level) →
      s'.image.history.IsBounded 2 := by
    intro s' hmem _
    have heq : s' = s := by simpa [ops] using hmem
    rw [heq]
    exact ⟨by decide, by decide⟩
  have hmodel : ((briefLevel.run ops).get? 0 .level).isSome := by decide +kernel
  have hlimit : briefLevel.config.historyLimit = 2 := rfl
  obtain ⟨hexists, hlength, hbounded⟩ := history_filled isBuilt_briefLevel 0 .level
  rw [hlimit] at hbounded
  clear_value ops
  obtain ⟨i, hi⟩ := Option.isSome_iff_exists.mp hmodel
  obtain ⟨h, k, hs⟩ := hexists ops hhosts
  exact ⟨isBuilt_briefLevel, hhosts, hops, h, k, i, hs, hi, hlength _ h k hs i hi,
    hbounded ops hops i hi⟩

/-- A level that keeps two changes takes over three from a valid snapshot. -/
theorem overfilled_briefLevel :
    let s : Snapshot := .ofImage "level" .epoch
      ⟨0, .level, .level 0, .level 0, [], .initial,
        ⟨[⟨.level 0, .level 1, 10, .client⟩, ⟨.level 1, .level 2, 20, .client⟩,
          ⟨.level 2, .level 0, 30, .client⟩], 32⟩⟩
    let n := briefLevel.run [.call (.restore s)]
    briefLevel.IsBuilt ∧ s.validate = .ok () ∧ n.config.historyLimit = 2 ∧
      (n.get? 0 .level).map (fun i => i.history.changes.length) = some 3 := by
  intro s n
  exact ⟨isBuilt_briefLevel, rfl, by decide +kernel, by decide +kernel⟩

end Node

end MeshNode
