import MeshNode.Proofs.Jobs.FirstEffects

/-! # Moments of a run

In the course of an operation a node has jobs on its agenda. From one moment to the next it begins
the first of them; with none left a call is made, a timer fires or time passes. Every run is a path
of such moments, so what is shown of the next moment holds in the midst of every operation.
-/

namespace MeshNode

/-- How far a job is from the bottom: the jobs that it leaves rank lower. Coming back from a level
of bindings ranks highest, as nothing but following bindings leaves it. -/
def Job.rank : Job → Nat
  | .ascend => 7
  | .obey .. | .call _ => 6
  | .carryOut _ => 5
  | .start .. | .expire _ => 4
  | .program .. | .halt .. => 3
  | .embark .. | .settle .. => 2
  | .follow .. | .answer .. => 1
  | _ => 0

theorem Job.rank_le (j : Job) : j.rank ≤ Job.ascend.rank := by cases j <;> simp [Job.rank]

namespace Moment

inductive Next (P : Node → Call → Prop) : Moment → Moment → Prop where
  | work (n : Node) (j : Job) (js : List Job) :
    Next P ⟨n, j :: js⟩ ⟨(n.begin j).node, (n.begin j).agenda ++ js⟩
  | call {n : Node} (x : Call) (hx : P n x) : Next P ⟨n, []⟩ ⟨n, [.call x]⟩
  | expiry {n : Node} {horizon : Nat} {timer : Timer} {ts : Timers}
    (h : n.timers.pop? horizon = some (timer, ts)) :
    Next P ⟨n, []⟩ ⟨{ n with timers := ts }, [.expire timer]⟩
  | passage {n : Node} {horizon : Nat} (h : n.timers.pop? horizon = none) :
    Next P ⟨n, []⟩ ⟨{ n with timers := n.timers.settle horizon }, []⟩

/-- The same moment or one some way further on. -/
abbrev Later (P : Node → Call → Prop) : Moment → Moment → Prop := Relation.ReflTransGen (Next P)

end Moment

namespace Node

open Moment

variable {n n' : Node} {j : Job} {P : Node → Call → Prop}

/-! ## Jobs come to an end -/

def Below (r : Nat) (js : List Job) : Prop := ∀ j ∈ js, j.rank < r

variable {r : Nat} {js js' : List Job} {e : UInt8} {m : Model}

@[simp] theorem below_nil : Below r [] := by simp [Below]

@[simp] theorem below_cons : Below r (j :: js) ↔ j.rank < r ∧ Below r js := by simp [Below]

@[simp] theorem below_append : Below r (js ++ js') ↔ Below r js ∧ Below r js' := by
  simp only [Below, List.mem_append, or_imp, forall_and]

theorem below_map {α : Type} {f : α → Job} {as : List α} (h : ∀ a, (f a).rank < r) :
    Below r (as.map f) := by
  intro j hj
  obtain ⟨a, -, rfl⟩ := List.mem_map.mp hj
  exact h a

theorem below_passing (hr : 1 < r) (e : UInt8) (m : Model) (v : Value) (s : Source) :
    Below r (Job.passing e m v s) := by
  unfold Job.passing
  split
  · simpa [Job.rank] using hr
  · exact below_nil

theorem below_onTransition (n : Node) (e : UInt8) (m : Model) :
    Below 4 (n.beginOnTransition e m).agenda := by
  unfold beginOnTransition
  split
  · exact below_nil
  next i _ =>
    split
    · cases hr : i.pendingReply <;> simp [beginEndDelay, hr, Job.rank]
    · split
      · split
        · simp only [beginMoveOn]
          split <;> simp [below_passing, Job.rank]
        · split
          · simp only [beginStepOn]
            split <;> simp [below_passing, Job.rank]
          · simp [Job.rank]
      · exact below_nil

theorem below_with {α : Type} {p : Except (List Violation) α} {act : α → Moment}
    (h : ∀ a, Below r (act a).agenda) (n : Node) : Below r (n.beginWith p act).agenda := by
  cases p with
  | ok a => exact h a
  | error vs => exact below_nil

theorem below_set (n : Node) (c : Envelope) (i : Instance) (p : Params Value) (ack : Bool) :
    Below 6 (n.beginSet c i p ack).agenda := by
  unfold beginSet
  split <;> simp [Job.rank]

theorem below_store (n : Node) (c : Envelope) (v : Value) (ack : Bool) :
    Below 6 (n.beginStore c v ack).agenda := by
  cases ack <;> simp [beginStore, Job.rank]

theorem below_move (n : Node) (c : Envelope) (i : Instance) (p : Params Level) (ack : Bool) :
    Below 6 (n.beginMove c i p ack).agenda := by
  unfold beginMove
  split
  · exact below_nil
  · dsimp only
    split
    · simp [Job.rank]
    · split <;> simp [Job.rank]

theorem below_receive (n : Node) (c : Envelope) (message : Message) :
    Below 6 (n.beginReceive c message).agenda := by
  unfold beginReceive
  split
  · exact below_nil
  next i _ =>
    unfold beginProcess
    split
    · simp [Job.rank]
    · exact below_with (fun p => below_set n c i p _) n
    · exact below_with (fun p => below_set n c i p _) n
    · exact below_with (fun p => below_set n c i p _) n
    · exact below_with (fun b => below_store n c _ _) n
    · exact below_with (fun t => below_store n c _ _) n
    · exact below_with (fun _ => by simp [beginDelta, Job.rank]) n
    · exact below_with (fun p => below_move n c i p _) n

theorem below_call (n : Node) (x : Call) : Below 6 (n.beginCall x).agenda := by
  cases x with
  | receive c message => exact below_receive n c message
  | publishPeriodically e m =>
    simp only [beginCall]
    split <;> simp [Job.rank]
  | storeScene e slot =>
    simp only [beginCall, beginStoreScene]
    split
    · exact below_nil
    · split
      · exact below_nil
      · exact below_map fun _ => by simp [Job.rank]
  | recallScene e slot transition =>
    simp only [beginCall, beginRecallScene]
    split
    · exact below_nil
    · split
      · exact below_nil
      · exact below_map fun _ => by simp [Job.rank]
  | powerUp => exact below_map fun _ => by simp [Job.rank]
  | setLightDefault e l =>
    simp only [beginCall, beginSetLightDefault]
    split <;> simp [Job.rank]
  | setLightRange e lo hi =>
    simp only [beginCall, beginSetLightRange]
    split
    · simp [Job.rank]
    next i _ =>
      split
      · cases i.settled
        all_goals
          dsimp only
          split <;> simp [Job.rank]
      · simp [Job.rank]
  | request | publish | sendStatus => simp [beginCall, Job.rank]
  | _ => exact below_nil

/-- Apart from the following of bindings, a job leaves jobs of lower ranks. -/
theorem below_begin (n : Node) (j : Job) (hj : ∀ e m v, j ≠ .follow e m v) :
    Below j.rank (n.begin j).agenda := by
  cases j with
  | follow e m v => exact absurd rfl (hj e m v)
  | obey v b => exact below_map fun _ => by simp [Job.rank]
  | carryOut r =>
    simp only [begin, beginCarryOut]
    split
    · simp [Job.rank]
    · exact below_nil
  | start e m v t d s motion =>
    simp only [begin, beginStart]
    split
    · exact below_nil
    · simp [Job.rank]
  | program e m v t d s =>
    simp only [begin, beginProgram]
    split
    · exact below_nil
    · split
      · simp [Job.rank]
      · split <;> simp [Job.rank]
  | embark e m v t s stepped =>
    simp only [begin, beginEmbark]
    split
    · split <;> simp [Job.rank]
    · simp [Job.rank]
  | settle e m v s =>
    simp only [begin, beginSettle]
    split
    · exact below_nil
    · split <;> simp [below_passing, Job.rank]
  | halt e m =>
    simp only [begin, beginHalt]
    split
    · exact below_nil
    · split <;> simp [Job.rank]
  | answer c m =>
    simp only [begin, beginAnswer]
    split
    · exact below_nil
    · split
      · exact below_nil
      · split <;> simp [Job.rank]
  | expire timer =>
    simp only [begin, beginExpire]
    split
    · exact below_onTransition n _ _
    · exact below_nil
  | call x => exact below_call n x
  | _ => exact below_nil

/-- The configuration and the depth are as they were. -/
def OnLevel (n n' : Node) : Prop := n'.config = n.config ∧ n'.depth = n.depth

theorem Nests.onLevel {b : Nat} (h : n.Nests b n') : n.OnLevel n' := ⟨h.config, h.depth⟩

theorem OnLevel.trans {n₁ : Node} (h : n.OnLevel n₁) (h' : n₁.OnLevel n') : n.OnLevel n' :=
  ⟨h'.1.trans h.1, h'.2.trans h.2⟩

theorem onLevel_foldl {α : Type} {f : Node → α → Node} (hf : ∀ n a, OnLevel n (f n a)) (as : List α)
    (n : Node) : n.OnLevel (as.foldl f n) :=
  List.foldlRecOn as f ⟨rfl, rfl⟩ fun n' h a _ => h.trans (hf n' a)

/-- Whatever is done, but for coming back from it, ends on the level of bindings on which it
began. -/
theorem onLevel_work (n : Node) (hj : j ≠ .ascend) : n.OnLevel (n.work j) := by
  cases j with
  | announce e m => exact (nests_of_doneFor (doneFor_announce trivial n)).onLevel
  | publish e m => exact (nests_of_doneFor (doneFor_publish trivial n)).onLevel
  | save e m => exact (nests_of_doneFor (doneFor_save trivial n)).onLevel
  | sendStatus e m reply => exact (nests_of_doneFor (doneFor_sendStatus trivial n _ _ _)).onLevel
  | reportLight e status =>
    exact (nests_of_doneFor (doneFor_reportLightSetting trivial n _)).onLevel
  | reportStored e v => exact (nests_of_doneFor (doneFor_emit trivial n rfl rfl)).onLevel
  | display e m v s => exact ⟨rfl, rfl⟩
  | resolveEdge e m => exact ⟨rfl, rfl⟩
  | ascend => exact absurd rfl hj
  | follow e m v => exact (deepens_follow n e m v).onLevel
  | obey v b =>
    exact (onLevel_foldl (fun n r => (nests_carryOut deepens_follow n r).onLevel) _
      (n.note (.followed b.link v n.depth)) :)
  | carryOut r => exact (nests_carryOut deepens_follow n r).onLevel
  | start e m v t d s motion => exact (nests_of_doneFor (doneFor_start trivial n)).onLevel
  | program e m v t d s => exact (nests_of_doneFor (doneFor_program trivial n)).onLevel
  | embark e m v t s stepped => exact (nests_of_doneFor (doneFor_embark trivial n)).onLevel
  | settle e m v s => exact (nests_of_doneFor (doneFor_settle trivial n)).onLevel
  | halt e m => exact (nests_of_doneFor (doneFor_halt trivial n)).onLevel
  | answer c m => exact (nests_of_doneFor (doneFor_answerUnlessDelayed trivial n)).onLevel
  | expire timer => exact (nests_onTimer n timer).onLevel
  | call x => exact (nests_handle n x).onLevel

/-- The jobs that a job leaves are done on the level on which it was begun, unless it goes down a
level or comes back from it. -/
theorem onLevel_begin (n : Node) (hfollow : ∀ e m v, j ≠ .follow e m v) (hascend : j ≠ .ascend) :
    n.OnLevel (n.begin j).node := by
  have h := outset_begin n j
  generalize n.begin j = c at h ⊢
  cases h with
  | event => exact (nests_of_doneFor (doneFor_emit trivial n rfl rfl)).onLevel
  | display | load => exact ⟨rfl, rfl⟩
  | follow e m v => exact absurd rfl (hfollow e m v)
  | ascend => exact absurd rfl hascend
  | unseen _ h => exact ⟨h.config, h.depth⟩

theorem later_foldl (js' : List Job) (hjs : Job.ascend ∉ js)
    (h : ∀ n', n.OnLevel n' → ∀ j ∈ js, ∀ js', Later P ⟨n', j :: js'⟩ ⟨n'.work j, js'⟩) :
    Later P ⟨n, js ++ js'⟩ ⟨js.foldl work n, js'⟩ := by
  induction js generalizing n with
  | nil => exact .refl
  | cons j js ih =>
    have hlevel : n.OnLevel (n.work j) := onLevel_work n fun hj => hjs (hj ▸ List.mem_cons_self)
    refine (h n ⟨rfl, rfl⟩ j List.mem_cons_self _).trans (ih ?_ fun n' hn j' hj' => ?_)
    · exact fun hmem => hjs (List.mem_cons_of_mem _ hmem)
    · exact h n' (hlevel.trans hn) j' (List.mem_cons_of_mem _ hj')

/-- A job is done with all that it leaves, whatever was left before: the jobs that it leaves rank
lower or are done on a level below, of which there are only so many. -/
theorem later_work (P : Node → Call → Prop) (n : Node) (j : Job) (js : List Job) :
    Later P ⟨n, j :: js⟩ ⟨n.work j, js⟩ := by
  refine .head (.work n j js) ?_
  rw [work_eq]
  by_cases hfollow : ∃ e m v, j = .follow e m v
  · obtain ⟨e, m, v, rfl⟩ := hfollow
    simp only [begin, beginFollow]
    split
    · exact .refl
    · split
      · exact .refl
      next hroom =>
        have hlt : n.depth < n.config.maxBindDepth.toNat := Nat.lt_of_not_le (not_or.mp hroom).2
        rw [finish, List.foldl_append, List.append_assoc]
        -- One level down there is less room, whatever the ranks of the jobs there.
        refine .trans (later_foldl _ (by simp) fun n' hn j hj js' => ?_)
          (.single (.work _ .ascend js))
        exact later_work P n' j js'
  · by_cases hascend : j = .ascend
    · subst hascend
      exact .refl
    -- On the same level the jobs that are left rank lower, and coming back is not among them.
    · have hlow := below_begin n j fun e m v hj => hfollow ⟨e, m, v, hj⟩
      have hlevel := onLevel_begin n (fun e m v hj => hfollow ⟨e, m, v, hj⟩) hascend
      refine later_foldl js ?_ fun n' hn j' hj' js' => ?_
      · exact fun hmem => absurd (hlow .ascend hmem) (Nat.not_lt.mpr j.rank_le)
      · exact later_work P n' j' js'
termination_by (n.config.maxBindDepth.toNat - n.depth, j.rank)
decreasing_by
  · refine Prod.Lex.left _ _ ?_
    rw [hn.1, hn.2]
    exact Nat.sub_succ_lt_self _ _ hlt
  · rw [(hlevel.trans hn).1, (hlevel.trans hn).2]
    exact Prod.Lex.right _ (hlow j' hj')

/-! ## Runs are paths of moments -/

theorem later_step (hs : Step P n n') : Later P ⟨n, []⟩ ⟨n', []⟩ := by
  cases hs with
  | call x hx => exact .head (.call x hx) (later_work P n (.call x) [])
  | expiry hp => exact .head (.expiry hp) (later_work P _ (.expire _) [])
  | passage hp => exact .single (.passage hp)

theorem later_steps (hs : Steps P n n') : Later P ⟨n, []⟩ ⟨n', []⟩ := by
  induction hs with
  | refl => exact .refl
  | tail _ hs ih => exact ih.trans (later_step hs)

theorem later_run {ops : List Operation} (ha : n.Admits P ops) :
    Later P ⟨n, []⟩ ⟨n.run ops, []⟩ :=
  later_steps (run_steps ha)

theorem later_of_run (n : Node) (ops : List Operation) :
    Later (fun _ _ => True) ⟨n, []⟩ ⟨n.run ops, []⟩ :=
  later_run (admits_of_forall (fun _ _ _ => trivial) n)

end Node

end MeshNode
