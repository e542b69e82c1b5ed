import Mathlib.Logic.Function.Basic
import MeshNode.Proofs.Timers.QueueOrder

/-! # Timers fire in turn

Beside the queue stands a ledger without an order, which notes for each timer by itself when it was
last armed to fire and which arming that was. Whatever is asked of the timers, the queue answers as
the ledger does: the timer that fires is the one with the least deadline, and of equal deadlines the
one whose last arming came first. So taking out the due timers one after another gives each of them
once, in that order.
-/

namespace MeshNode.Timers

inductive Command where
  | arm (timer : Timer) (after : Nat)
  | cancel (timer : Timer)
  | pop (horizon : Nat)
  | settle (time : Nat)

def execute (t : Timers) : Command → Timers × Option Timer
  | .arm timer after => (t.arm timer after, none)
  | .cancel timer => (t.cancel timer, none)
  | .pop horizon =>
    match t.pop? horizon with
    | some (timer, t') => (t', some timer)
    | none => (t, none)
  | .settle time => (t.settle time, none)

def executeAll (t : Timers) : List Command → Timers × List (Option Timer)
  | [] => (t, [])
  | c :: rest =>
    let (t', answers) := (t.execute c).1.executeAll rest
    (t', (t.execute c).2 :: answers)

/-! ## Ledgers -/

/-- When a timer is to fire, and which arming since the start that was. -/
structure Arming where
  deadline : Nat
  turn : Nat

/-- An arming fires before another: earlier, or at the same time and armed earlier. -/
def Arming.Before (x y : Arming) : Prop :=
  x.deadline < y.deadline ∨ x.deadline = y.deadline ∧ x.turn < y.turn

/-- A clock, how often a timer was armed, and the last arming of each armed timer. -/
structure Ledger where
  now : Nat
  turns : Nat
  armed : Timer → Option Arming

namespace Ledger

def startingAt (now : Nat) : Ledger := ⟨now, 0, fun _ => none⟩

def arm (l : Ledger) (timer : Timer) (after : Nat) : Ledger :=
  { l with
    turns := l.turns + 1
    armed := Function.update l.armed timer (some ⟨onClock (l.now + after), l.turns + 1⟩) }

def cancel (l : Ledger) (timer : Timer) : Ledger :=
  { l with armed := Function.update l.armed timer none }

def settle (l : Ledger) (time : Nat) : Ledger := { l with now := max l.now time }

/-- The ledger has a timer with an arming that is due by a time and before all others. -/
def IsNext (l : Ledger) (horizon : Nat) (timer : Timer) (x : Arming) : Prop :=
  l.armed timer = some x ∧ x.deadline ≤ horizon ∧
    ∀ other y, other ≠ timer → l.armed other = some y → x.Before y

def IsQuiet (l : Ledger) (horizon : Nat) : Prop :=
  ∀ timer x, l.armed timer = some x → horizon < x.deadline

/-- What a command does to a ledger, and what it gives. -/
inductive Step : Ledger → Command → Option Timer → Ledger → Prop where
  | arm {l : Ledger} {timer : Timer} {after : Nat} :
      Step l (.arm timer after) none (l.arm timer after)
  | cancel {l : Ledger} {timer : Timer} : Step l (.cancel timer) none (l.cancel timer)
  | settle {l : Ledger} {time : Nat} : Step l (.settle time) none (l.settle time)
  | fire {l : Ledger} {horizon : Nat} {timer : Timer} {x : Arming}
      (hnext : l.IsNext horizon timer x) :
      Step l (.pop horizon) (some timer) { l.cancel timer with now := max l.now x.deadline }
  | quiet {l : Ledger} {horizon : Nat} (hquiet : l.IsQuiet horizon) :
      Step l (.pop horizon) none l

/-- What some commands do to a ledger in order, and what each of them gives. -/
inductive Run : Ledger → List Command → List (Option Timer) → Ledger → Prop where
  | nil {l : Ledger} : Run l [] [] l
  | cons {l l' l'' : Ledger} {c : Command} {answer : Option Timer} {rest : List Command}
      {answers : List (Option Timer)} (hstep : Step l c answer l')
      (hrest : Run l' rest answers l'') : Run l (c :: rest) (answer :: answers) l''

end Ledger

variable {t t' : Timers} {l l' l₁ l₂ : Ledger} {timer other : Timer} {horizon : Nat}
  {x y z : Arming} {c : Command} {answer answer' : Option Timer} {commands : List Command}
  {answers answers' : List (Option Timer)}

theorem Arming.Before.irrefl : ¬ x.Before x := by
  simp [Arming.Before]

theorem Arming.Before.asymm (h : x.Before y) : ¬ y.Before x := by
  unfold Arming.Before at *
  omega

theorem Ledger.IsNext.unique (h : l.IsNext horizon timer x) (h' : l.IsNext horizon other y) :
    timer = other ∧ x = y := by
  obtain ⟨hx, -, hbefore⟩ := h
  obtain ⟨hy, -, hbefore'⟩ := h'
  by_cases hne : timer = other
  · subst hne
    exact ⟨rfl, Option.some.inj (hx.symm.trans hy)⟩
  · exact absurd (hbefore' timer x hne hx) (hbefore other y (Ne.symm hne) hy).asymm

theorem Ledger.IsQuiet.not_isNext (h : l.IsQuiet horizon) : ¬ l.IsNext horizon timer x :=
  fun hnext => absurd hnext.2.1 (Nat.not_le.mpr (h timer x hnext.1))

/-- What a ledger gives does not depend on any order of its timers. -/
theorem Ledger.Step.unique (h : Step l c answer l₁) (h' : Step l c answer' l₂) :
    answer = answer' ∧ l₁ = l₂ := by
  cases h with
  | arm | cancel | settle => cases h'; exact ⟨rfl, rfl⟩
  | fire hnext =>
    cases h' with
    | fire hnext' =>
      obtain ⟨rfl, rfl⟩ := hnext.unique hnext'
      exact ⟨rfl, rfl⟩
    | quiet hquiet => exact absurd hnext hquiet.not_isNext
  | quiet hquiet =>
    cases h' with
    | fire hnext => exact absurd hnext hquiet.not_isNext
    | quiet => exact ⟨rfl, rfl⟩

theorem Ledger.Run.unique (h : Run l commands answers l₁) (h' : Run l commands answers' l₂) :
    answers = answers' ∧ l₁ = l₂ := by
  induction h generalizing answers' with
  | nil => cases h'; exact ⟨rfl, rfl⟩
  | cons hstep _ ih =>
    obtain _ | ⟨hstep', hrest'⟩ := h'
    obtain ⟨rfl, rfl⟩ := hstep.unique hstep'
    obtain ⟨rfl, rfl⟩ := ih hrest'
    exact ⟨rfl, rfl⟩

/-! ## Queues beside ledgers -/

def alarmOf (s : Timer × Arming) : Alarm := ⟨s.1, s.2.deadline⟩

/-- A queue holds what the ledger has, in the order in which it fires. The turns, which only the
ledger knows, are those of some list of stamped timers that the queue is made of. -/
structure HoldsLedger (t : Timers) (l : Ledger) : Prop where
  now : t.now = l.now
  sequence : t.sequence = l.turns
  stamped : ∃ stamps : List (Timer × Arming), t.queue = stamps.map alarmOf ∧
    (∀ timer x, (timer, x) ∈ stamps ↔ l.armed timer = some x) ∧
    stamps.Pairwise fun s s' => s.2.Before s'.2
  turns : ∀ timer x, l.armed timer = some x → x.turn ≤ l.turns

theorem holdsLedger_startingAt (now : Nat) :
    (startingAt now).HoldsLedger (Ledger.startingAt now) where
  now := rfl
  sequence := rfl
  stamped := ⟨[], rfl, by simp [Ledger.startingAt], .nil⟩
  turns := by simp [Ledger.startingAt]

theorem enqueue_split {a : Alarm} {q : List Alarm}
    (h : q.Pairwise fun a b => a.deadline ≤ b.deadline) :
    ∃ before after, q = before ++ after ∧ enqueue a q = before ++ a :: after ∧
      (∀ b ∈ before, b.deadline ≤ a.deadline) ∧ ∀ b ∈ after, a.deadline < b.deadline := by
  induction q with
  | nil => exact ⟨[], [], rfl, rfl, by simp, by simp⟩
  | cons b rest ih =>
    obtain ⟨hb, hrest⟩ := List.pairwise_cons.mp h
    rw [enqueue]
    split
    next hle =>
      obtain ⟨before, after, rfl, henq, hbefore, hafter⟩ := ih hrest
      refine ⟨b :: before, after, rfl, by rw [henq]; rfl, ?_, hafter⟩
      exact List.forall_mem_cons.mpr ⟨hle, hbefore⟩
    next hlt =>
      refine ⟨[], b :: rest, rfl, rfl, by simp, List.forall_mem_cons.mpr ⟨by omega, ?_⟩⟩
      intro c hc
      have := hb c hc
      omega

theorem sorted_stamps {stamps : List (Timer × Arming)}
    (h : stamps.Pairwise fun s s' => s.2.Before s'.2) :
    (stamps.map alarmOf).Pairwise fun a b => a.deadline ≤ b.deadline := by
  refine List.pairwise_map.mpr (h.imp ?_)
  intro s s' hbefore
  simp only [alarmOf]
  unfold Arming.Before at hbefore
  omega

theorem nodup_stamps {stamps : List (Timer × Arming)}
    (hmem : ∀ timer x, (timer, x) ∈ stamps ↔ l.armed timer = some x)
    (h : stamps.Pairwise fun s s' => s.2.Before s'.2) : (stamps.map Prod.fst).Nodup := by
  refine List.pairwise_map.mpr (h.imp_of_mem ?_)
  rintro ⟨timer, x⟩ ⟨other, y⟩ hs hs' hbefore rfl
  have hxy : x = y := Option.some.inj (((hmem _ _).mp hs).symm.trans ((hmem _ _).mp hs'))
  exact Arming.Before.irrefl (hxy ▸ hbefore)

namespace HoldsLedger

theorem mem_queue_iff (g : t.HoldsLedger l) {a : Alarm} :
    a ∈ t.queue ↔ ∃ x, l.armed a.timer = some x ∧ x.deadline = a.deadline := by
  obtain ⟨stamps, hqueue, hmem, -⟩ := g.stamped
  simp only [hqueue, List.mem_map, ← hmem]
  constructor
  · rintro ⟨⟨timer, x⟩, hs, rfl⟩
    exact ⟨x, hs, rfl⟩
  · rintro ⟨x, hs, hx⟩
    exact ⟨(a.timer, x), hs, by rw [alarmOf, hx]⟩

theorem nodup (g : t.HoldsLedger l) : (t.queue.map Alarm.timer).Nodup := by
  obtain ⟨stamps, hqueue, hmem, hbefore⟩ := g.stamped
  rw [hqueue, List.map_map]
  exact nodup_stamps hmem hbefore

theorem sorted (g : t.HoldsLedger l) : t.queue.Pairwise fun a b => a.deadline ≤ b.deadline := by
  obtain ⟨stamps, hqueue, -, hbefore⟩ := g.stamped
  exact hqueue ▸ sorted_stamps hbefore

theorem deadline?_eq (g : t.HoldsLedger l) (timer : Timer) :
    t.deadline? timer = (l.armed timer).map Arming.deadline := by
  cases hd : t.deadline? timer with
  | none =>
    cases hx : l.armed timer with
    | none => rfl
    | some x =>
      have hin : ⟨timer, x.deadline⟩ ∈ t.queue := g.mem_queue_iff.mpr ⟨x, hx, rfl⟩
      exact absurd rfl (deadline?_eq_none_iff.mp hd _ hin)
  | some d =>
    obtain ⟨x, hx, rfl⟩ := g.mem_queue_iff.mp (mem_of_deadline? hd)
    rw [hx]
    rfl

theorem cancel (g : t.HoldsLedger l) (timer : Timer) :
    (t.cancel timer).HoldsLedger (l.cancel timer) where
  now := g.now
  sequence := g.sequence
  stamped := by
    obtain ⟨stamps, hqueue, hmem, hbefore⟩ := g.stamped
    refine ⟨stamps.filter (·.1 ≠ timer), ?_, fun other x => ?_, hbefore.filter _⟩
    · rw [Timers.cancel, hqueue, List.filter_map]
      rfl
    · by_cases h : other = timer <;> simp [Ledger.cancel, h, hmem]
  turns other x hx := by
    simp only [Ledger.cancel, Function.update_apply] at hx
    split at hx
    · cases hx
    · exact g.turns other x hx

theorem arm (g : t.HoldsLedger l) (timer : Timer) (after : Nat) :
    (t.arm timer after).HoldsLedger (l.arm timer after) where
  now := g.now
  sequence := congrArg (· + 1) g.sequence
  stamped := by
    obtain ⟨stamps, hqueue, hmem, hbefore⟩ := (g.cancel timer).stamped
    obtain ⟨first, last, hsplit, henq, hfirst, hlast⟩ :=
      enqueue_split (a := ⟨timer, onClock (t.now + after)⟩) (sorted_stamps hbefore)
    obtain ⟨first, last, rfl, rfl, rfl⟩ := List.map_eq_append_iff.mp hsplit
    obtain ⟨hbefore₁, hbefore₂, hbetween⟩ := List.pairwise_append.mp hbefore
    have hturns : ∀ s ∈ first, s.2.turn ≤ l.turns := fun s hs =>
      (g.cancel timer).turns s.1 s.2 ((hmem s.1 s.2).mp (List.mem_append_left _ hs))
    refine ⟨first ++ (timer, ⟨onClock (l.now + after), l.turns + 1⟩) :: last, ?_,
      fun other x => ?_, ?_⟩
    · rw [Timers.arm, hqueue, henq, g.now]
      simp [alarmOf]
    · have hold : (other, x) ∈ first ∨ (other, x) ∈ last ↔ (l.cancel timer).armed other = some x :=
        by rw [← hmem, List.mem_append]
      rw [List.mem_append, List.mem_cons, or_left_comm, hold]
      by_cases h : other = timer
      · simp [Ledger.cancel, Ledger.arm, h, eq_comm]
      · simp [Ledger.cancel, Ledger.arm, h]
    · rw [← g.now] at *
      refine List.pairwise_append.mpr ⟨hbefore₁, List.pairwise_cons.mpr ⟨?_, hbefore₂⟩, ?_⟩
      · intro s hs
        exact .inl (hlast (alarmOf s) (List.mem_map_of_mem hs))
      · refine fun s hs s' hs' => ?_
        rcases List.mem_cons.mp hs' with rfl | hs'
        · have hle : s.2.deadline ≤ onClock (t.now + after) :=
            hfirst (alarmOf s) (List.mem_map_of_mem hs)
          have := hturns s hs
          simp only [Arming.Before]
          omega
        · exact hbetween s hs s' hs'
  turns other x hx := by
    simp only [Ledger.arm, Function.update_apply] at hx
    split at hx
    · obtain rfl := Option.some.inj hx
      exact Nat.le_refl _
    · exact Nat.le_succ_of_le (g.turns other x hx)

theorem withNow (g : t.HoldsLedger l) (now : Nat) : { t with now }.HoldsLedger { l with now } where
  now := rfl
  sequence := g.sequence
  stamped := g.stamped
  turns := g.turns

theorem settle (g : t.HoldsLedger l) (time : Nat) :
    (t.settle time).HoldsLedger (l.settle time) := by
  rw [Ledger.settle, ← g.now]
  exact g.withNow _

theorem pop?_cases (g : t.HoldsLedger l) (horizon : Nat) :
    (∃ timer x, l.IsNext horizon timer x ∧
      t.pop? horizon = some (timer, { t.cancel timer with now := max t.now x.deadline })) ∨
    l.IsQuiet horizon ∧ t.pop? horizon = none := by
  obtain ⟨stamps, hqueue, hmem, hbefore⟩ := g.stamped
  rcases stamps with _ | ⟨⟨timer, x⟩, rest⟩
  · refine .inr ⟨fun timer x hx => ?_, by simp [pop?, hqueue]⟩
    cases (hmem timer x).mpr hx
  obtain ⟨hfirst, -⟩ := List.pairwise_cons.mp hbefore
  -- The stamps of a queue are in firing order, so its head comes before all that the ledger has.
  have hothers : ∀ other y, other ≠ timer → l.armed other = some y → x.Before y := by
    intro other y hne hy
    rcases List.mem_cons.mp ((hmem other y).mpr hy) with h | h
    · cases h
      exact absurd rfl hne
    · exact hfirst _ h
  have hx : l.armed timer = some x := (hmem timer x).mp (by simp)
  by_cases hdue : x.deadline ≤ horizon
  · refine .inl ⟨timer, x, ⟨hx, hdue, hothers⟩, ?_⟩
    have hnew : timer ∉ rest.map Prod.fst := (List.nodup_cons.mp (nodup_stamps hmem hbefore)).1
    have hrest : (rest.map alarmOf).filter (·.timer ≠ timer) = rest.map alarmOf := by
      rw [List.filter_eq_self, List.forall_mem_map]
      rintro ⟨other, y⟩ hs
      refine decide_eq_true ?_
      rintro rfl
      exact hnew (List.mem_map_of_mem hs)
    rw [pop?, hqueue, Timers.cancel, hqueue, List.map_cons,
      List.filter_cons_of_neg (by simp [alarmOf]), hrest]
    simp [alarmOf, hdue]
  · refine .inr ⟨fun other y hy => ?_, by simp [pop?, hqueue, alarmOf, hdue]⟩
    rcases List.mem_cons.mp ((hmem other y).mpr hy) with h | h
    · cases h
      exact Nat.not_le.mp hdue
    · have := hfirst _ h
      simp only [Arming.Before] at this
      omega

theorem pop?_eq_some_iff (g : t.HoldsLedger l) : t.pop? horizon = some (timer, t') ↔
    ∃ x, l.IsNext horizon timer x ∧ t' = { t.cancel timer with now := max t.now x.deadline } := by
  rcases g.pop?_cases horizon with ⟨other, y, hnext, hpop⟩ | ⟨hquiet, hpop⟩
  · rw [hpop, Option.some.injEq, Prod.mk.injEq]
    constructor
    · rintro ⟨rfl, rfl⟩
      exact ⟨y, hnext, rfl⟩
    · rintro ⟨x, hnext', rfl⟩
      obtain ⟨rfl, rfl⟩ := hnext.unique hnext'
      exact ⟨rfl, rfl⟩
  · rw [hpop]
    exact ⟨nofun, fun ⟨x, hnext, _⟩ => absurd hnext hquiet.not_isNext⟩

theorem pop?_eq_none_iff (g : t.HoldsLedger l) : t.pop? horizon = none ↔ l.IsQuiet horizon := by
  rcases g.pop?_cases horizon with ⟨timer, x, hnext, hpop⟩ | ⟨hquiet, hpop⟩
  · rw [hpop]
    exact ⟨nofun, fun hquiet => absurd hnext hquiet.not_isNext⟩
  · exact ⟨fun _ => hquiet, fun _ => hpop⟩

theorem execute (g : t.HoldsLedger l) (c : Command) :
    ∃ l', Ledger.Step l c (t.execute c).2 l' ∧ (t.execute c).1.HoldsLedger l' := by
  cases c with
  | arm timer after => exact ⟨_, .arm, g.arm timer after⟩
  | cancel timer => exact ⟨_, .cancel, g.cancel timer⟩
  | settle time => exact ⟨_, .settle, g.settle time⟩
  | pop horizon =>
    rcases g.pop?_cases horizon with ⟨timer, x, hnext, hpop⟩ | ⟨hquiet, hpop⟩
    · simp only [Timers.execute, hpop]
      exact ⟨_, .fire hnext, g.now ▸ (g.cancel timer).withNow (max t.now x.deadline)⟩
    · simp only [Timers.execute, hpop]
      exact ⟨l, .quiet hquiet, g⟩

theorem executeAll (g : t.HoldsLedger l) (commands : List Command) :
    ∃ l', Ledger.Run l commands (t.executeAll commands).2 l' ∧
      (t.executeAll commands).1.HoldsLedger l' := by
  induction commands generalizing t l with
  | nil => exact ⟨l, .nil, g⟩
  | cons c rest ih =>
    obtain ⟨l', hstep, g'⟩ := g.execute c
    obtain ⟨l'', hrest, g''⟩ := ih g'
    exact ⟨l'', .cons hstep hrest, g''⟩

end HoldsLedger

/-! ## Taking out all that is due -/

def dueBy (t : Timers) (horizon : Nat) : List Timer :=
  (t.queue.filter (·.deadline ≤ horizon)).map Alarm.timer

/-- Taking out timers gives those that are due, each once, and then none. -/
theorem pops_eq (h : t.queue.Pairwise fun a b => a.deadline ≤ b.deadline) (horizon k : Nat) :
    (t.executeAll (.replicate k (.pop horizon))).2 =
      ((t.dueBy horizon).take k).map some ++ .replicate (k - (t.dueBy horizon).length) none := by
  induction k generalizing t with
  | zero => simp [executeAll]
  | succ k ih =>
    rw [List.replicate_succ, executeAll]
    rcases hq : t.queue with _ | ⟨a, rest⟩
    · have hdue : t.dueBy horizon = [] := by simp [dueBy, hq]
      have hpop : t.execute (.pop horizon) = (t, none) := by simp [execute, pop?, hq]
      rw [hpop]
      simpa [hdue, List.replicate_succ] using ih h
    obtain ⟨hfirst, hrest⟩ := List.pairwise_cons.mp (hq ▸ h)
    by_cases hle : a.deadline ≤ horizon
    · let t' : Timers := { t with now := max t.now a.deadline, queue := rest }
      have hpop : t.execute (.pop horizon) = (t', some a.timer) := by
        simp [t', execute, pop?, hq, hle]
      have hdue : t.dueBy horizon = a.timer :: t'.dueBy horizon := by
        simp [t', dueBy, hq, hle]
      rw [hpop]
      simpa [hdue] using ih (t := t') hrest
    · have hpop : t.execute (.pop horizon) = (t, none) := by simp [execute, pop?, hq, hle]
      have hdue : t.dueBy horizon = [] := by
        simp only [dueBy, hq, List.map_eq_nil_iff, List.filter_eq_nil_iff, List.mem_cons,
          forall_eq_or_imp, decide_eq_true_eq]
        exact ⟨hle, fun b hb => by have := hfirst b hb; omega⟩
      rw [hpop]
      simpa [hdue, List.replicate_succ] using ih h

namespace HoldsLedger

theorem mem_dueBy (g : t.HoldsLedger l) :
    timer ∈ t.dueBy horizon ↔ ∃ x, l.armed timer = some x ∧ x.deadline ≤ horizon := by
  simp only [dueBy, List.mem_map, List.mem_filter, decide_eq_true_eq]
  constructor
  · rintro ⟨a, ⟨ha, hle⟩, rfl⟩
    obtain ⟨x, hx, hxa⟩ := g.mem_queue_iff.mp ha
    exact ⟨x, hx, hxa ▸ hle⟩
  · rintro ⟨x, hx, hle⟩
    exact ⟨⟨timer, x.deadline⟩, ⟨g.mem_queue_iff.mpr ⟨x, hx, rfl⟩, hle⟩, rfl⟩

theorem nodup_dueBy (g : t.HoldsLedger l) (horizon : Nat) : (t.dueBy horizon).Nodup :=
  (List.filter_sublist.map _).nodup g.nodup

theorem dueBy_in_turn (g : t.HoldsLedger l) (horizon : Nat) :
    (t.dueBy horizon).Pairwise fun timer other =>
      ∃ x y, l.armed timer = some x ∧ l.armed other = some y ∧ x.Before y := by
  obtain ⟨stamps, hqueue, hmem, hbefore⟩ := g.stamped
  refine List.pairwise_map.mpr (List.Pairwise.filter _ (hqueue ▸ List.pairwise_map.mpr ?_))
  refine hbefore.imp_of_mem fun {s s'} hs hs' h => ?_
  exact ⟨s.2, s'.2, (hmem _ _).mp hs, (hmem _ _).mp hs', h⟩

end HoldsLedger

/-! ## What the timers do -/

/-- The timers do what a ledger says: the same clock, as many armings, the same timers with the same
deadlines, the same timer next, and all that is due in the order of the ledger. -/
structure FiresBy (t : Timers) (l : Ledger) : Prop where
  now : t.now = l.now
  sequence : t.sequence = l.turns
  forward : ∀ c, t.now ≤ (t.execute c).1.now
  once : (t.queue.map Alarm.timer).Nodup
  deadlines : ∀ timer, t.deadline? timer = (l.armed timer).map Arming.deadline
  fires : ∀ horizon timer t', t.execute (.pop horizon) = (t', some timer) ↔
    ∃ x, l.IsNext horizon timer x ∧ t' = { t.cancel timer with now := max t.now x.deadline }
  quiet : ∀ horizon t', t.execute (.pop horizon) = (t', none) ↔ l.IsQuiet horizon ∧ t' = t
  /-- Taking out timers gives all that are due, in order, and then none. -/
  drains : ∀ horizon, ∃ due : List Timer, due.Nodup ∧
    (∀ timer, timer ∈ due ↔ ∃ x, l.armed timer = some x ∧ x.deadline ≤ horizon) ∧
    (due.Pairwise fun timer other =>
      ∃ x y, l.armed timer = some x ∧ l.armed other = some y ∧ x.Before y) ∧
    ∀ k, (t.executeAll (.replicate k (.pop horizon))).2 =
      (due.take k).map some ++ .replicate (k - due.length) none

theorem now_le_execute (t : Timers) (c : Command) : t.now ≤ (t.execute c).1.now := by
  cases c with
  | arm | cancel => exact Nat.le_refl _
  | settle => exact Nat.le_max_left ..
  | pop horizon =>
    simp only [execute, pop?]
    split
    next hpop =>
      split at hpop
      next => cases hpop
      next =>
        split at hpop
        · obtain ⟨-, rfl⟩ := Prod.mk.inj (Option.some.inj hpop)
          exact Nat.le_max_left ..
        · cases hpop
    next => exact Nat.le_refl _

theorem HoldsLedger.firesBy (g : t.HoldsLedger l) : t.FiresBy l where
  now := g.now
  sequence := g.sequence
  forward := t.now_le_execute
  once := g.nodup
  deadlines := g.deadline?_eq
  fires horizon timer t' := by
    rw [← g.pop?_eq_some_iff, Timers.execute]
    split <;> simp [*, and_comm]
  quiet horizon t' := by
    rw [← g.pop?_eq_none_iff, Timers.execute]
    split <;> simp [*, eq_comm]
  drains horizon :=
    ⟨t.dueBy horizon, g.nodup_dueBy horizon, fun _ => g.mem_dueBy, g.dueBy_in_turn horizon,
      pops_eq g.sorted horizon⟩

/-- Whatever is asked of new timers, they answer as a ledger that keeps its timers in no order, and
they stand as that ledger does. The commands leave the ledger no choice. -/
theorem fires_in_turn (start : Nat) (commands : List Command) :
    let t := ((startingAt start).executeAll commands).1
    let answers := ((startingAt start).executeAll commands).2
    ∃ l, Ledger.Run (.startingAt start) commands answers l ∧
      (∀ answers' l', Ledger.Run (.startingAt start) commands answers' l' →
        answers' = answers ∧ l' = l) ∧
      t.FiresBy l := by
  intro t answers
  obtain ⟨l, hrun, g⟩ := (holdsLedger_startingAt start).executeAll commands
  exact ⟨l, hrun, fun _ _ hrun' => hrun'.unique hrun, g.firesBy⟩

end MeshNode.Timers
