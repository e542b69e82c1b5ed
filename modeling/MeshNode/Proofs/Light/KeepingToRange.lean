import MeshNode.Proofs.Transition.Trip

/-! # Keeping to a range

A lit lamp keeps to its range. Requests are pulled into the range, and the steps of a transition lie
between the value that it started from and its target. So they are in the range as long as both ends
are, and neither of them is zero.
-/

namespace MeshNode

def Value.IsWithin (range : Lightness × Lightness) : Value → Prop
  | lightness l => l = 0 ∨ range.1 ≤ l ∧ l ≤ range.2
  | _ => True

variable {range : Lightness × Lightness} {memory : LightMemory} {v w : Value} {l a b : Lightness}
  {t d : Nat} {s : Source}

theorem LightMemory.clamp_eq_self_iff :
    memory.clamp l = l ↔ (Value.lightness l).IsWithin memory.range := by
  simp only [clamp, Value.IsWithin, range, UInt16.lt_iff_toNat_lt, UInt16.le_iff_toNat_le,
    ← UInt16.toNat_inj]
  split
  next hl => simp [hl]
  next hl =>
    split
    next hlt => omega
    next hlt =>
      split
      next hgt => omega
      next hgt => omega

theorem LightMemory.isWithin_clamp (h : isRange memory.rangeMin memory.rangeMax = true)
    (l : Lightness) : (Value.lightness (memory.clamp l)).IsWithin memory.range := by
  simp only [isRange, Bool.and_eq_true, decide_eq_true_eq] at h
  rw [clamp]
  split
  next hl => exact .inl hl
  next hl =>
    split
    next => exact .inr ⟨UInt16.le_refl _, h.2⟩
    next hlt =>
      split
      next => exact .inr ⟨h.2, UInt16.le_refl _⟩
      next hgt => exact .inr ⟨UInt16.not_lt.mp hlt, UInt16.not_lt.mp hgt⟩

theorem Node.isWithin_confine {i : Instance}
    (h : LightMemory.isRange i.light.rangeMin i.light.rangeMax = true) (v : Value) :
    (confine i v).IsWithin i.light.range := by
  cases v with
  | lightness l => exact LightMemory.isWithin_clamp h l
  | _ => trivial

/-! ## Steps towards a target -/

theorem Lightness.toNat_clamp (p : Int) :
    ((Lightness.clamp p).toNat : Int) = max 0 (min p 65535) := by
  have hlt : (max 0 (min p 65535)).toNat < UInt16.size := by
    rw [UInt16.size]
    omega
  rw [clamp, UInt16.toNat_ofNat_of_lt' hlt]
  omega

namespace Stepping

/-- From the first position the steps go towards the second one and not beyond it. -/
def Approaches (s : Stepping) (a b : Int) : Prop :=
  0 ≤ s.increment ∧ a + s.steps * s.increment ≤ b ∨
    s.increment ≤ 0 ∧ b ≤ a + s.steps * s.increment

theorem word32_of_lt {steps : Nat} (h : steps < 2147483648) : word32 steps = steps := by
  refine Int.bmod_eq_of_le ?_ ?_
  all_goals
    simp only [UInt32.size]
    omega

/-- Steps that a signed word can count approach the target that they are planned for. -/
theorem approaches_plan {a b : Int} {k : Nat} (ha : v.position? = some a)
    (hb : w.position? = some b) (hk : t / k < 2147483648) (hs : 0 < (plan v w t k).steps) :
    (plan v w t k).Approaches a b := by
  simp only [plan, ha, hb] at hs ⊢
  split at hs
  · cases hs
  next hlong =>
    rw [if_neg hlong]
    generalize t / k = steps at hk hs
    simp only [Approaches, word32_of_lt hk]
    rcases Int.le_total a b with hle | hle
    · have hdist : 0 ≤ b - a := by omega
      have hmul := Int.mul_tdiv_self_le (k := (steps : Int)) hdist
      exact .inl ⟨Int.tdiv_nonneg hdist (by omega), by omega⟩
    · have hdist : 0 ≤ a - b := by omega
      have hmul := Int.mul_tdiv_self_le (k := (steps : Int)) hdist
      have hneg : (b - a).tdiv steps = -((a - b).tdiv steps) := by
        rw [← Int.neg_tdiv, Int.neg_sub]
      rw [hneg, Int.mul_neg]
      have hquot := Int.tdiv_nonneg hdist (Int.natCast_nonneg steps)
      exact .inr ⟨by omega, by omega⟩

variable {st : Stepping} {a b : Int}

theorem Approaches.next (h : st.Approaches a b) (hs : 0 < st.next.steps) :
    st.next.Approaches (a + st.increment) b := by
  have hsteps : st.next.steps = st.steps - 1 := by
    simp only [Stepping.next] at hs ⊢
    split at hs
    · cases hs
    next h2 => rw [if_neg h2]
  have hsum : a + st.increment + ((st.steps - 1 : Nat) : Int) * st.increment =
      a + st.steps * st.increment := by
    rw [Int.natCast_sub (by omega)]
    ring
  rw [Approaches, hsteps, show st.next.increment = st.increment from rfl, hsum]
  exact h

theorem Approaches.between (h : st.Approaches a b) (hs : 0 < st.steps) :
    a ≤ a + st.increment ∧ a + st.increment ≤ b ∨ b ≤ a + st.increment ∧ a + st.increment ≤ a := by
  have hone : (1 : Int) ≤ st.steps := by exact_mod_cast hs
  rcases h with ⟨hinc, hend⟩ | ⟨hinc, hend⟩
  · have hmul : 1 * st.increment ≤ st.steps * st.increment :=
      Int.mul_le_mul_of_nonneg_right hone hinc
    exact .inl ⟨by omega, by omega⟩
  · have hmul : st.steps * st.increment ≤ 1 * st.increment :=
      Int.mul_le_mul_of_nonpos_right hone hinc
    exact .inr ⟨by omega, by omega⟩

end Stepping

/-- Between two values of the range, neither of them zero, a step leads into the range. -/
theorem Value.isWithin_shift {st : Stepping} (h : st.Approaches a.toNat b.toNat)
    (hs : 0 < st.steps) (ha : (lightness a).IsWithin range) (hb : (lightness b).IsWithin range)
    (ha₀ : a ≠ 0) (hb₀ : b ≠ 0) : ((lightness a).shift st.increment).IsWithin range := by
  have hbetween := h.between hs
  have hva := a.toNat_lt
  have hvb := b.toNat_lt
  have hpos := Lightness.toNat_clamp (a.toNat + st.increment)
  refine .inr ?_
  obtain ⟨hlo, hhi⟩ := ha.resolve_left ha₀
  obtain ⟨hlo', hhi'⟩ := hb.resolve_left hb₀
  simp only [UInt16.le_iff_toNat_le] at hlo hhi hlo' hhi'
  change range.1 ≤ Lightness.clamp (a.toNat + st.increment) ∧
    Lightness.clamp (a.toNat + st.increment) ≤ range.2
  simp only [UInt16.le_iff_toNat_le]
  omega

/-! ## Courses -/

namespace Course

variable {c : Course} {safe strict : Prop}

/-- The steps left of a transition of a lightness approach its target. -/
def Approaches (c : Course) : Prop :=
  ∀ a b, c.present = .lightness a → c.target = .lightness b → 0 < c.stepping.steps →
    c.stepping.Approaches a.toNat b.toNat

/-- The course keeps to a range: its target is within the range, at least while it is busy, and if
asked strictly so are the present value and the steps ahead. -/
structure Keeps (range : Lightness × Lightness) (safe strict : Prop) (c : Course) : Prop where
  target : safe ∨ 0 < c.delay ∨ 0 < c.remaining → c.target.IsWithin range
  idle : ¬ (0 < c.delay ∨ 0 < c.remaining) → c.present = c.target
  present : strict → c.present.IsWithin range
  approaches : strict → c.Approaches

theorem Keeps.weaken {p : Prop} (h : c.Keeps range safe strict) (hp : p → strict) :
    c.Keeps range safe p :=
  ⟨h.target, h.idle, fun hq => h.present (hp hq), fun hq => h.approaches (hp hq)⟩

/-- Where the course ends, unless it is idle and may be anywhere. -/
theorem Keeps.isWithin_target (h : c.Keeps range safe strict)
    (hw : (safe ∨ strict) ∨ 0 < c.delay ∨ 0 < c.remaining) : c.target.IsWithin range := by
  by_cases hbusy : 0 < c.delay ∨ 0 < c.remaining
  · exact h.target (.inr hbusy)
  · rcases hw.resolve_right hbusy with hs | hs
    · exact h.target (.inl hs)
    · exact h.idle hbusy ▸ h.present hs

theorem keeps_finish (c : Course) (hw : safe ∨ strict → w.IsWithin range) :
    (c.finish w).Keeps range safe strict where
  target h := hw (.inl (h.resolve_right (by simp [finish])))
  idle _ := rfl
  present h := hw (.inr h)
  approaches _ _ _ _ _ h := absurd h (by simp [finish, Stepping.none])

theorem keeps_enter (himm : w.isImmediate = false)
    (hw : (safe ∨ strict) ∨ 0 < d ∨ 0 < t → w.IsWithin range)
    (hp : strict → c.present.IsWithin range)
    (happroaches : strict → { c with target := w : Course }.Approaches) :
    (c.enter w t d s).Keeps range safe strict := by
  rw [enter]
  dsimp only
  split
  next hd =>
    exact ⟨fun _ => hw (.inr (.inl hd)), fun h => absurd (.inl hd) h, hp, happroaches⟩
  next hd =>
    split
    next ht =>
      rw [himm]
      exact ⟨fun _ => hw (.inr (.inr ht)), fun h => absurd (.inr ht) h, hp, happroaches⟩
    next ht => exact keeps_finish _ fun h => hw (.inl h)

theorem Approaches.stepped (h : c.Approaches) : c.stepped.Approaches := by
  intro a b ha hb hs
  have hactive : 0 < c.stepping.steps :=
    of_decide_eq_true (Stepping.isActive_of_next (decide_eq_true hs))
  -- The value before the step was a lightness as well.
  obtain ⟨l, hl⟩ : ∃ l, c.present = .lightness l := by
    have hmodel : c.present.model = .lightness := by
      rw [← Value.model_shift c.present c.stepping.increment]
      exact congrArg Value.model ha
    cases hp : c.present with
    | lightness l => exact ⟨l, rfl⟩
    | _ => rw [hp] at hmodel; cases hmodel
  have happroaches := h l b hl hb hactive
  have hbetween := happroaches.between hactive
  have hnext := happroaches.next hs
  have hshift : Lightness.clamp (l.toNat + c.stepping.increment) = a := by
    have hstep : c.present.shift c.stepping.increment = .lightness a := ha
    rw [hl] at hstep
    exact Value.lightness.inj hstep
  have hpos := Lightness.toNat_clamp (l.toNat + c.stepping.increment)
  have hvl := l.toNat_lt
  have hvb := b.toNat_lt
  rw [hshift] at hpos
  have hexact : (a.toNat : Int) = l.toNat + c.stepping.increment := by omega
  rw [hexact]
  exact hnext

theorem Keeps.stepped (h : c.Keeps range safe strict) (hbusy : 0 < c.delay ∨ 0 < c.remaining)
    (hp : strict → (c.present.shift c.stepping.increment).IsWithin range) :
    c.stepped.Keeps range safe strict where
  target := h.target
  idle hidle := absurd hbusy hidle
  present := hp
  approaches hs := (h.approaches hs).stepped

/-- In another range the course keeps to that one, if it holds the value to settle on and, asked
strictly, what is shown on the way. -/
theorem Keeps.rerange {range' : Lightness × Lightness} {p : Prop} (h : c.Keeps range safe strict)
    (hidle : ¬ (0 < c.delay ∨ 0 < c.remaining) → c.present.IsWithin range')
    (hbusy : 0 < c.delay ∨ 0 < c.remaining → c.target.IsWithin range')
    (hp : p → strict ∧ (0 < c.delay ∨ 0 < c.remaining → c.present.IsWithin range')) :
    c.Keeps range' safe p where
  target _ := by
    by_cases hb : 0 < c.delay ∨ 0 < c.remaining
    · exact hbusy hb
    · exact h.idle hb ▸ hidle hb
  idle := h.idle
  present hq := by
    by_cases hb : 0 < c.delay ∨ 0 < c.remaining
    · exact (hp hq).2 hb
    · exact hidle hb
  approaches hq := h.approaches (hp hq).1

theorem Keeps.marked (h : c.Keeps range safe strict) (edge : Bool) :
    { c with edgeResolved := edge : Course }.Keeps range safe strict :=
  ⟨h.target, h.idle, h.present, h.approaches⟩

end Course

end MeshNode
