import Mathlib.Data.List.Chain
import MeshNode.Proofs.Jobs.Moments

/-! # What histories keep

An instance comes by another present value only when a value is shown on it, and each time its
history gets the change. So as long as nothing is loaded, a history is the end of all that was
written, up to its limit.
-/

namespace MeshNode

def History.recent (limit : UInt64) (ws : List Change) : History :=
  ⟨ws.drop (ws.length - limit.toNat), limit⟩

/-- The history holds the latest of some changes, which led to a present value. -/
structure History.Ends (h : History) (limit : UInt64) (ws : List Change) (present : Value)
    (now : Nat) : Prop where
  changes : h.changes = ws.drop (ws.length - limit.toNat)
  length : h.changes.length = min limit.toNat ws.length
  nothing : limit = 0 → h.changes = []
  moved : ∀ w ∈ h.changes, w.before ≠ w.after
  chained : h.changes.IsChain fun w w' => w.after = w'.before
  last : ∀ w ∈ h.last?, w.after = present
  /-- Times are kept in 64 bits, so they can be compared as long as the clock fits these. -/
  ordered : now < UInt64.size → h.changes.Pairwise fun w w' => w.time ≤ w'.time
  past : ∀ w ∈ h.changes, w.time.toNat ≤ now

def Node.NoRestore (_ : Node) (x : Call) : Prop := ∀ s, x ≠ .restore s

theorem Timers.now_le_of_pop? {t t' : Timers} {horizon : Nat} {timer : Timer}
    (h : t.pop? horizon = some (timer, t')) : t.now ≤ t'.now := by
  unfold pop? at h
  split at h
  · cases h
  · split at h
    · obtain ⟨-, rfl⟩ := Prod.mk.injEq .. ▸ Option.some.inj h
      exact Nat.le_max_left ..
    · cases h

namespace Node

variable {n n' : Node} {e : UInt8} {m : Model} {v : Value} {h : History}

theorem present?_of_shown? (hv : n.shown? e m = some (v, h)) : n.present? e m = some v := by
  obtain ⟨i, hi, heq⟩ := Option.map_eq_some_iff.mp hv
  rw [present?, hi]
  exact congrArg (some ·.1) heq

theorem present?_congr (hshown : n'.shown? e m = n.shown? e m) :
    n'.present? e m = n.present? e m := by
  have hfst (n : Node) : n.present? e m = (n.shown? e m).map Prod.fst := by
    rw [shown?, Option.map_map]
    rfl
  rw [hfst, hfst, hshown]

theorem shown?_display_self (n : Node) (e : UInt8) (m : Model) (w : Value) (s : Source) :
    (n.display e m w s).shown? e m = n.shown? e m ∨
      ∃ v h, v ≠ w ∧ n.shown? e m = some (v, h) ∧ (n.display e m w s).shown? e m =
        some (w, h.record ⟨v, w, UInt64.ofNat n.now, s⟩) := by
  simp only [shown?, display, get?_modify_self, Option.map_map]
  cases n.get? e m with
  | none => exact .inl rfl
  | some i =>
    by_cases hv : i.present = w
    · exact .inl (by simp [Instance.display, Change.isChange, hv])
    · exact .inr ⟨_, _, hv, rfl, by simp [Instance.display, Change.isChange, hv]⟩

end Node

namespace Moment

/-- What asked for the value that is shown next. -/
def source? (c : Moment) : Option Source :=
  match c.agenda with
  | .display _ _ _ s :: _ => some s
  | _ => none

/-- The value that is to be shown next on an instance. -/
def shows? (c : Moment) (e : UInt8) (m : Model) : Option Value :=
  match c.agenda with
  | .display e' m' v _ :: _ => if (e', m') = (e, m) then some v else none
  | _ => none

/-- The changes that were written to the present value of an instance on the way from one moment to
another, oldest first. -/
inductive WritesAlong (P : Node → Call → Prop) (e : UInt8) (m : Model) (c₀ : Moment) :
    Moment → List Change → Prop where
  | start : WritesAlong P e m c₀ c₀ []
  | still {c c' : Moment} {ws : List Change} (h : WritesAlong P e m c₀ c ws) (hc : Next P c c')
    (hsame : c'.node.present? e m = c.node.present? e m) : WritesAlong P e m c₀ c' ws
  | write {c c' : Moment} {ws : List Change} {v w : Value} {s : Source}
    (h : WritesAlong P e m c₀ c ws) (hc : Next P c c') (hv : c.node.present? e m = some v)
    (hw : c'.node.present? e m = some w) (hne : v ≠ w) (hs : c.source? = some s) :
    WritesAlong P e m c₀ c' (ws ++ [⟨v, w, UInt64.ofNat c.node.now, s⟩])

variable {P : Node → Call → Prop} {e : UInt8} {m : Model} {c c' : Moment}

/-! ## From one moment to the next -/

/-- Snapshots are loaded by calls only, and no job leaves a call. -/
def RestoresNothing (c : Moment) : Prop := ∀ s, .call (.restore s) ∉ c.agenda

theorem call_notMem_begin (n : Node) (j : Job) (x : Call) : .call x ∉ (n.begin j).agenda := by
  intro hmem
  cases j with
  | follow e m v =>
    simp only [Node.begin, Node.beginFollow] at hmem
    split at hmem
    · cases hmem
    · split at hmem
      · cases hmem
      · simp at hmem
  | ascend => cases hmem
  | _ =>
    have hrank := Node.below_begin n _ (by simp) _ hmem
    simp [Job.rank] at hrank

theorem RestoresNothing.next (h : c.RestoresNothing) (hc : Next Node.NoRestore c c') :
    c'.RestoresNothing := by
  intro s hmem
  cases hc with
  | work n j js =>
    rcases List.mem_append.mp hmem with hmem | hmem
    · exact call_notMem_begin n j _ hmem
    · exact h s (List.mem_cons_of_mem _ hmem)
  | call x hx =>
    obtain rfl : .restore s = x := by simpa using hmem
    exact hx s rfl
  | expiry | passage => simp at hmem

theorem now_next (hc : Next P c c') : c.node.now ≤ c'.node.now := by
  cases hc with
  | work n j js => exact (Node.now_begin n j).ge
  | call => exact Nat.le_refl _
  | @expiry n horizon timer ts h => exact Timers.now_le_of_pop? h
  | passage => exact Nat.le_max_left ..

theorem next_cases (h : c.RestoresNothing) (hc : Next P c c') (e : UInt8) (m : Model) :
    (c.shows? e m = none ∧ c'.node.shown? e m = c.node.shown? e m ∧
        c'.node.last? e m = c.node.last? e m) ∨
      ∃ v s, c.shows? e m = some v ∧ c.source? = some s ∧ c'.node = c.node.display e m v s := by
  cases hc with
  | call | expiry | passage => exact .inl ⟨rfl, rfl, rfl⟩
  | work n j js =>
    by_cases hj : ∃ e m v s, j = .display e m v s
    · obtain ⟨e', m', v, s, rfl⟩ := hj
      by_cases hx : (e', m') = (e, m)
      · obtain ⟨rfl, rfl⟩ := Prod.mk.injEq .. ▸ hx
        exact .inr ⟨v, s, if_pos rfl, rfl, rfl⟩
      · have hget : (n.display e' m' v s).get? e m = n.get? e m :=
          Node.get?_modify_of_ne (Ne.symm hx)
        exact .inl ⟨if_neg hx, congrArg _ hget, congrArg _ hget⟩
    · have hdisplay : ∀ e m v s, j ≠ .display e m v s := fun e m v s heq => hj ⟨e, m, v, s, heq⟩
      have hrestore : ∀ s, j ≠ .call (.restore s) := fun s heq => h s (heq ▸ List.mem_cons_self)
      refine .inl ⟨?_, Node.shown?_begin hdisplay hrestore e m,
        Node.last?_begin hdisplay hrestore e m⟩
      rw [shows?]
      split
      next heq => exact absurd (List.cons.inj heq).1 (hdisplay _ _ _ _)
      next => rfl

/-- What an instance shows changes only when another value is shown on it. -/
theorem shown?_next (h : c.RestoresNothing) (hc : Next P c c') :
    c'.node.shown? e m = c.node.shown? e m ∨
      ∃ v h w s, v ≠ w ∧ c.source? = some s ∧ c.node.shown? e m = some (v, h) ∧
        c'.node.shown? e m = some (w, h.record ⟨v, w, UInt64.ofNat c.node.now, s⟩) := by
  rcases next_cases h hc e m with ⟨-, hsame, -⟩ | ⟨w, s, -, hs, hdisplay⟩
  · exact .inl hsame
  · rw [hdisplay]
    rcases Node.shown?_display_self c.node e m w s with hsame | ⟨v, h, hne, hv, hw⟩
    · exact .inl hsame
    · exact .inr ⟨v, h, w, s, hne, hs, hv, hw⟩

end Moment

namespace History

theorem recent_nil (limit : UInt64) : recent limit [] = .empty limit := by simp [recent, empty]

theorem record_recent (limit : UInt64) (ws : List Change) (w : Change) :
    (recent limit ws).record w = recent limit (ws ++ [w]) := by
  unfold record recent
  dsimp only
  split
  next h => simp [h]
  next h =>
    have hpos : 0 < limit.toNat := Nat.pos_of_ne_zero fun h0 => h (UInt64.toNat_inj.mp h0)
    have hkeep : (ws ++ [w]).length - limit.toNat ≤ ws.length := by
      simp only [List.length_append, List.length_singleton]
      omega
    rw [List.drop_append_of_le_length hkeep, List.drop_drop, List.length_drop, List.length_append,
      List.length_singleton]
    congr 3
    omega

end History

namespace Moment

variable {P : Node → Call → Prop} {e : UInt8} {m : Model} {c₀ c c' : Moment} {ws : List Change}
  {limit : UInt64} {h : History}

/-- All changes of a present value so far, and what is left of them. -/
structure Recorded (e : UInt8) (m : Model) (limit : UInt64) (ws : List Change) (c : Moment) :
    Prop where
  shown : ∀ v h, c.node.shown? e m = some (v, h) →
    h = .recent limit ws ∧ ∀ w ∈ ws.getLast?, w.after = v
  moved : ∀ w ∈ ws, w.before ≠ w.after
  chained : ws.IsChain fun w w' => w.after = w'.before
  past : ∀ w ∈ ws, w.time.toNat ≤ c.node.now
  ordered : c.node.now < UInt64.size → ws.Pairwise fun w w' => w.time ≤ w'.time

theorem Recorded.still (hr : Recorded e m limit ws c) (hnow : c.node.now ≤ c'.node.now)
    (hshown : c'.node.shown? e m = c.node.shown? e m) : Recorded e m limit ws c' where
  shown := hshown ▸ hr.shown
  moved := hr.moved
  chained := hr.chained
  past w hw := (hr.past w hw).trans hnow
  ordered hlt := hr.ordered (hnow.trans_lt hlt)

theorem Recorded.write (hr : Recorded e m limit ws c) (hnow : c.node.now ≤ c'.node.now)
    {v w : Value} {s : Source} (hne : v ≠ w) (hv : c.node.shown? e m = some (v, h))
    (hw : c'.node.shown? e m = some (w, h.record ⟨v, w, UInt64.ofNat c.node.now, s⟩)) :
    Recorded e m limit (ws ++ [⟨v, w, UInt64.ofNat c.node.now, s⟩]) c' where
  shown v' h' hshown := by
    obtain ⟨rfl, rfl⟩ := Prod.mk.injEq .. ▸ Option.some.inj (hw.symm.trans hshown)
    obtain ⟨rfl, -⟩ := hr.shown v h hv
    exact ⟨History.record_recent limit ws _, by simp⟩
  moved := by
    simp only [List.forall_mem_append, List.forall_mem_singleton]
    exact ⟨hr.moved, hne⟩
  chained := by
    refine hr.chained.append (List.isChain_singleton _) fun w hw w' hw' => ?_
    obtain rfl := Option.some.inj hw'
    exact (hr.shown v h hv).2 w hw
  past := by
    simp only [List.forall_mem_append, List.forall_mem_singleton]
    refine ⟨fun w hw => (hr.past w hw).trans hnow, ?_⟩
    exact (Nat.mod_le _ _).trans hnow
  ordered hlt := by
    have hlt : c.node.now < UInt64.size := hnow.trans_lt hlt
    refine List.pairwise_append.mpr ⟨hr.ordered hlt, List.pairwise_singleton _ _, ?_⟩
    intro w hw w' hw'
    obtain rfl := List.mem_singleton.mp hw'
    rw [UInt64.le_iff_toNat_le, UInt64.toNat_ofNat_of_lt' hlt]
    exact hr.past w hw

theorem WritesAlong.later (hw : WritesAlong P e m c₀ c ws) : Later P c₀ c := by
  induction hw with
  | start => exact .refl
  | still _ hc _ ih => exact ih.tail hc
  | write _ hc _ _ _ _ ih => exact ih.tail hc

theorem RestoresNothing.later (h : c.RestoresNothing) (hc : Later Node.NoRestore c c') :
    c'.RestoresNothing := by
  induction hc with
  | refl => exact h
  | tail _ hc ih => exact ih.next hc

theorem WritesAlong.recorded (h₀ : c₀.RestoresNothing) (hr : Recorded e m limit [] c₀)
    (hw : WritesAlong Node.NoRestore e m c₀ c ws) : Recorded e m limit ws c := by
  -- What is shown stays or another value takes its place: the one is no write, the other is one.
  induction hw with
  | start => exact hr
  | still hw hc hsame ih =>
    rcases shown?_next (h₀.later hw.later) hc with hshown | ⟨v, h, w, s, hne, -, hv, hw⟩
    · exact ih.still (now_next hc) hshown
    · rw [Node.present?_of_shown? hv, Node.present?_of_shown? hw] at hsame
      exact absurd (Option.some.inj hsame).symm hne
  | write hw hc hv hv' hne hs ih =>
    rcases shown?_next (h₀.later hw.later) hc with hshown | ⟨v₁, h, w₁, s₁, -, hs₁, hv₁, hw₁⟩
    · rw [Node.present?_congr hshown, hv] at hv'
      exact absurd (Option.some.inj hv') hne
    · obtain rfl := Option.some.inj ((Node.present?_of_shown? hv₁).symm.trans hv)
      obtain rfl := Option.some.inj ((Node.present?_of_shown? hw₁).symm.trans hv')
      obtain rfl := Option.some.inj (hs₁.symm.trans hs)
      exact ih.write (now_next hc) hne hv₁ hw₁

/-- There are no gaps: every change on the way is a write. -/
theorem exists_writes (h₀ : c₀.RestoresNothing) (hc : Later Node.NoRestore c₀ c)
    (e : UInt8) (m : Model) :
    ∃ ws, WritesAlong Node.NoRestore e m c₀ c ws := by
  induction hc with
  | refl => exact ⟨[], .start⟩
  | tail hlater hc ih =>
    obtain ⟨ws, hws⟩ := ih
    rcases shown?_next (h₀.later hlater) hc with hshown | ⟨v, h, w, s, hne, hs, hv, hw⟩
    · exact ⟨ws, .still hws hc (Node.present?_congr hshown)⟩
    · exact ⟨_, .write hws hc (Node.present?_of_shown? hv) (Node.present?_of_shown? hw) hne hs⟩

theorem Recorded.ends (hr : Recorded e m limit ws c) {i : Instance}
    (hi : c.node.get? e m = some i) : i.history.Ends limit ws i.present c.node.now := by
  have hshown : c.node.shown? e m = some (i.present, i.history) := by rw [Node.shown?, hi]; rfl
  obtain ⟨hhistory, hlast⟩ := hr.shown _ _ hshown
  have hchanges : i.history.changes = ws.drop (ws.length - limit.toNat) := by rw [hhistory]; rfl
  have hlength : i.history.changes.length = min limit.toNat ws.length := by
    rw [hchanges, List.length_drop]
    omega
  have hsub : i.history.changes.Sublist ws := hchanges ▸ List.drop_sublist _ ws
  refine ⟨hchanges, hlength, ?_, ?_, ?_, ?_, ?_, ?_⟩
  · rintro rfl
    exact List.length_eq_zero_iff.mp (hlength.trans (Nat.zero_min _))
  · exact fun w hw => hr.moved w (hsub.subset hw)
  · exact hchanges ▸ hr.chained.drop _
  · intro w hw
    rw [History.last?, hchanges, List.getLast?_drop] at hw
    split at hw
    · cases hw
    · exact hlast w hw
  · exact fun hclock => (hr.ordered hclock).sublist hsub
  · exact fun w hw => hr.past w (hsub.subset hw)

end Moment

namespace Node

variable {n : Node}

theorem holdsOfPlanned_history (config : Config) :
    HoldsOfPlanned config fun _ i => i.history = .empty config.historyLimit where
  new _ := rfl
  value _ _ _ h := h
  saved _ _ h := h

theorem IsBuilt.recorded (h : n.IsBuilt) (e : UInt8) (m : Model) :
    Moment.Recorded e m n.config.historyLimit [] ⟨n, []⟩ where
  shown v history hshown := by
    obtain ⟨i, hi, heq⟩ := Option.map_eq_some_iff.mp hshown
    obtain ⟨-, rfl⟩ := Prod.mk.injEq .. ▸ heq
    rw [History.recent_nil]
    exact ⟨h.holdsPlanned (holdsOfPlanned_history n.config) hi, by simp⟩
  moved := by simp
  chained := .nil
  past := by simp
  ordered _ := .nil

theorem now_run_lt {ops : List Operation} (h : n.Sound) (hnow : n.now < UInt64.size)
    (hops : ∀ t, .advanceTo t ∈ ops → t < UInt64.size) : (n.run ops).now < UInt64.size := by
  have hadvance {n : Node} (h : n.Sound) (hnow : n.now < UInt64.size) {t : Nat}
      (ht : t < UInt64.size) : (n.advanceTo t).now < UInt64.size :=
    Nat.lt_of_le_of_lt (now_advanceTo_le h t) (Nat.max_lt.mpr ⟨hnow, ht⟩)
  induction ops generalizing n with
  | nil => exact hnow
  | cons op ops ih =>
    refine ih (h.perform op) ?_ fun t ht => hops t (List.mem_cons_of_mem _ ht)
    cases op with
    | call x => exact (now_handle h.typed x).trans_lt hnow
    | advance ms => exact hadvance h hnow (Nat.lt_of_le_of_lt (Nat.min_le_right ..) (by decide))
    | advanceTo t => exact hadvance h hnow (hops t List.mem_cons_self)

/-- In every run in which no snapshot is loaded there is a list of all changes that were written to
the present value of an instance, and at every moment on the way the history of the instance is the
end of the list, as long as the limit says. -/
theorem history_ends (hn : n.IsBuilt) (e : UInt8) (m : Model) :
    (∀ ops, (∀ s, .call (.restore s) ∉ ops) →
      ∃ ws, Moment.WritesAlong NoRestore e m ⟨n, []⟩ ⟨n.run ops, []⟩ ws) ∧
    (∀ c ws, Moment.WritesAlong NoRestore e m ⟨n, []⟩ c ws → ∀ i, c.node.get? e m = some i →
      i.history.Ends n.config.historyLimit ws i.present c.node.now) ∧
    ∀ ops, n.now < UInt64.size → (∀ t, .advanceTo t ∈ ops → t < UInt64.size) →
      (n.run ops).now < UInt64.size := by
  have hrestores : (Moment.mk n []).RestoresNothing := by simp [Moment.RestoresNothing]
  refine ⟨fun ops hops => ?_, fun c ws hw i hi => ?_, fun ops => now_run_lt hn.sound⟩
  · have hadmits : n.Admits NoRestore ops := by
      refine admits_of_forall (fun _ x hx s hs => hops s ?_) n
      exact hs ▸ hx
    exact Moment.exists_writes hrestores (later_run hadmits) e m
  · exact (hw.recorded hrestores (hn.recorded e m)).ends hi

def briefLevel : Node :=
  ⟨{ historyLimit := 2 }, [Element.empty.set .level (some (.new .level 16 2))], .withCapacity 30,
    .startingAt 0, .none, false, 0, []⟩

theorem isBuilt_briefLevel : briefLevel.IsBuilt :=
  ⟨⟨{ historyLimit := 2 }, [.single .level]⟩, 0, false, rfl⟩

/-- A level is set three times, once to what it is, and then a client moves it. -/
theorem history_ends_briefLevel :
    let ops : List Operation := [.call (.request (.application 0 (.level 10) 0 0)), .advance 100,
      .call (.request (.application 0 (.level 20) 0 0)), .advance 100,
      .call (.request (.application 0 (.level 20) 0 0)), .advance 100,
      .call (.receive ⟨0, 7, 0, true⟩ (.set .level [30, 0, 1] false))]
    let n := briefLevel.run ops
    briefLevel.IsBuilt ∧ (∀ s, .call (.restore s) ∉ ops) ∧
      ∃ ws i, Moment.WritesAlong NoRestore 0 .level ⟨briefLevel, []⟩ ⟨n, []⟩ ws ∧
        n.now < UInt64.size ∧ n.get? 0 .level = some i ∧
        i.history.changes = [⟨.level 10, .level 20, 100, .application⟩,
          ⟨.level 20, .level 30, 300, .client⟩] ∧
        i.history.Ends 2 ws i.present n.now := by
  intro ops n
  have hops : ∀ s, .call (.restore s) ∉ ops := by simp [ops]
  have hshown : (n.get? 0 .level).map (fun i => i.history.changes) =
      some [⟨.level 10, .level 20, 100, .application⟩, ⟨.level 20, .level 30, 300, .client⟩] := by
    decide +kernel
  obtain ⟨i, hi, hchanges⟩ := Option.map_eq_some_iff.mp hshown
  obtain ⟨hexists, hends, hclock⟩ := history_ends isBuilt_briefLevel 0 .level
  obtain ⟨ws, hws⟩ := hexists ops hops
  have hnow : n.now < UInt64.size := hclock ops (by decide) (by simp [ops])
  exact ⟨isBuilt_briefLevel, hops, ws, i, hws, hnow, hi, hchanges, hends _ ws hws i hi⟩

end Node

end MeshNode
