import Mathlib.Data.List.Perm.Subperm
import Mathlib.Data.List.Nodup
import Mathlib.Tactic.MkIffOfInductiveProp
import MeshNode.Config.Json
import MeshNode.Proofs.Codec.JsonRecords
import MeshNode.Proofs.Codec.JsonText

/-! # Configurations however they are written

A configuration is refused for exactly what is wrong with it. Its text is read as the configuration
itself, and so is any text that gives its fields in another order or leaves out some that have their
defaults.
-/

namespace MeshNode

namespace Config

variable {c d : Config} {fs : List (String × Json)}

/-! ## What can be wrong -/

@[mk_iff]
structure Sound (c : Config) : Prop where
  bindingCapacity : c.bindingCapacity ≤ 30
  dedupTimeout : 0 < c.dedupTimeout
  stepInterval : 0 < c.stepInterval
  moveInterval : 0 < c.moveInterval
  maxBindDepth : 0 < c.maxBindDepth

def Has (c : Config) : ConfigProblem → Prop
  | .bindingCapacity n => n = c.bindingCapacity ∧ 30 < n
  | .zeroTransactionTimeout => c.dedupTimeout = 0
  | .zeroStepInterval => c.stepInterval = 0
  | .zeroMoveInterval => c.moveInterval = 0
  | .zeroBindDepth => c.maxBindDepth = 0

instance (c : Config) : DecidablePred c.Has
  | .bindingCapacity n => inferInstanceAs (Decidable (n = c.bindingCapacity ∧ 30 < n))
  | .zeroTransactionTimeout => inferInstanceAs (Decidable (c.dedupTimeout = 0))
  | .zeroStepInterval => inferInstanceAs (Decidable (c.stepInterval = 0))
  | .zeroMoveInterval => inferInstanceAs (Decidable (c.moveInterval = 0))
  | .zeroBindDepth => inferInstanceAs (Decidable (c.maxBindDepth = 0))

def possibleProblems (c : Config) : List ConfigProblem :=
  [.bindingCapacity c.bindingCapacity, .zeroTransactionTimeout, .zeroStepInterval,
    .zeroMoveInterval, .zeroBindDepth]

theorem capacity_le_iff :
    c.bindingCapacity.toNat ≤ BindingTable.maxCapacity ↔ c.bindingCapacity ≤ 30 := by
  rw [UInt64.le_iff_toNat_le]
  rfl

theorem filter_cons_eq_append {α : Type} (p : α → Bool) (a : α) (as : List α) :
    (a :: as).filter p = (if p a then [a] else []) ++ as.filter p := by
  rw [List.filter_cons]
  split <;> rfl

theorem problems_eq_filter (c : Config) :
    c.problems = c.possibleProblems.filter fun p => c.Has p := by
  have hcapacity : c.Has (.bindingCapacity c.bindingCapacity) ↔
      ¬ c.bindingCapacity.toNat ≤ BindingTable.maxCapacity := by
    rw [capacity_le_iff, UInt64.not_le]
    exact and_iff_right rfl
  simp only [problems, possibleProblems, filter_cons_eq_append, List.filter_nil, List.append_nil,
    List.append_assoc, decide_eq_true_eq, hcapacity, ite_not]
  rfl

theorem problems_eq_nil_iff : c.problems = [] ↔ c.Sound := by
  simp only [problems, sound_iff, List.append_eq_nil_iff, ite_eq_left_iff, ite_eq_right_iff,
    capacity_le_iff, List.cons_ne_nil, imp_false, not_not, UInt32.pos_iff_ne_zero,
    UInt64.pos_iff_ne_zero, ne_eq, and_assoc]

theorem checked_eq_ok_iff : c.checked = .ok d ↔ d = c ∧ c.Sound := by
  rw [checked, ← problems_eq_nil_iff]
  split
  next hnil => exact ⟨fun h => ⟨(Except.ok.inj h).symm, hnil⟩, fun h => congrArg _ h.1.symm⟩
  next hne => exact ⟨fun h => (by cases h), fun h => absurd h.2 hne⟩

theorem checked_eq_error_iff {e : ConfigError} : c.checked = .error e ↔
    ¬ c.Sound ∧ e = .invalid (c.possibleProblems.filter fun p => c.Has p) := by
  rw [checked, ← problems_eq_nil_iff, ← problems_eq_filter]
  split
  next hnil => exact ⟨fun h => (by cases h), fun h => absurd hnil h.1⟩
  next hne => exact ⟨fun h => ⟨hne, (Except.error.inj h).symm⟩, fun h => congrArg _ h.2.symm⟩

/-! ## What may be left out -/

/-- The fields are those of the configuration in some order, except that some that have their
defaults may be left out. -/
structure Abridges (fs : List (String × Json)) (c : Config) : Prop where
  subperm : fs.Subperm c.fields
  left_out : ∀ f ∈ c.fields, f ∉ fs → f ∈ ({} : Config).fields

theorem names_fields (c : Config) : c.fields.map Prod.fst = fieldNames := rfl

theorem nodup_names (c : Config) : (c.fields.map Prod.fst).Nodup := by
  rw [names_fields]
  decide

theorem fields_abridges (c : Config) : Abridges c.fields c :=
  ⟨List.Subperm.refl _, fun _ hf hout => absurd hf hout⟩

theorem Abridges.nodup_names (h : Abridges fs c) : (fs.map Prod.fst).Nodup := by
  obtain ⟨kept, hperm, hsub⟩ := h.subperm
  exact (hperm.map _).nodup_iff.mp (c.nodup_names.sublist (hsub.map _))

/-- A field of the configuration is found with its value, or left out and a default. -/
theorem Abridges.unique?_cases (h : Abridges fs c) {f : String × Json} (hf : f ∈ c.fields) :
    Json.unique? (fs.map fun f => (some f.1, f.2)) f.1 = some (some f.2) ∨
      Json.unique? (fs.map fun f => (some f.1, f.2)) f.1 = some none ∧
        f ∈ ({} : Config).fields := by
  by_cases hfs : f ∈ fs
  · exact .inl (Json.unique?_of_mem h.nodup_names hfs)
  · refine .inr ⟨Json.unique?_of_notMem fun hname => hfs ?_, h.left_out f hf hfs⟩
    obtain ⟨g, hg, heq⟩ := List.mem_map.mp hname
    rwa [← List.inj_on_of_nodup_map c.nodup_names (h.subperm.subset hg) hf heq]

theorem Abridges.read_eq {α : Type} {read : Json → Option α} {name : String} {j k : Json}
    {v standard : α} (h : Abridges fs c) (i : Nat) (hj : c.fields[i]? = some (name, j))
    (hk : ({} : Config).fields[i]? = some (name, k)) (hread : read j = some v)
    (hstandard : read k = some standard) :
    ∃ x, Json.unique? (fs.map fun f => (some f.1, f.2)) name = some x ∧
      Json.orElse read standard x = some v := by
  rcases h.unique?_cases (List.mem_of_getElem? hj) with heq | ⟨heq, hdefault⟩
  · exact ⟨some j, heq, hread⟩
  · obtain ⟨-, rfl⟩ := Prod.mk.inj
      (List.inj_on_of_nodup_map (Config.nodup_names _) hdefault (List.mem_of_getElem? hk) rfl)
    exact ⟨none, heq, hstandard.symm.trans hread⟩

theorem Abridges.ofJson?_eq (h : Abridges fs c) : ofJson? (.mk fs) = some c := by
  have h64 := Json.word64?_nat
  have h32 := Json.word32?_nat
  obtain ⟨_, ha, hcapacity⟩ := h.read_eq 0 rfl rfl (h64 c.bindingCapacity) (h64 _)
  obtain ⟨_, hb, htimeout⟩ := h.read_eq 1 rfl rfl (h32 c.dedupTimeout) (h32 _)
  obtain ⟨_, hc, hscenes⟩ := h.read_eq 2 rfl rfl (h64 c.sceneSlots) (h64 _)
  obtain ⟨_, hd, hstep⟩ := h.read_eq 3 rfl rfl (h32 c.stepInterval) (h32 _)
  obtain ⟨_, he, hmove⟩ := h.read_eq 4 rfl rfl (h32 c.moveInterval) (h32 _)
  obtain ⟨_, hf, hdepth⟩ := h.read_eq 5 rfl rfl (h64 c.maxBindDepth) (h64 _)
  obtain ⟨_, hg, hhistory⟩ := h.read_eq 6 rfl rfl (h64 c.historyLimit) (h64 _)
  rw [ofJson?, Json.record?_of_fields]
  simp only [fieldNames, List.mapM_cons, List.mapM_nil, ha, hb, hc, hd, he, hf, hg,
    Option.bind_eq_bind, Option.bind_some, Option.pure_def, hcapacity, htimeout, hscenes, hstep,
    hmove, hdepth, hhistory]

theorem Abridges.ofText_eq {t : String} (h : Abridges fs c) (ht : Json.parse? t = some (.mk fs)) :
    ofText t = c.checked := by
  rw [ofText, ht, Option.bind_some, h.ofJson?_eq]

/-- A configuration is accepted exactly if nothing is wrong with it, and refused for exactly what is
wrong, in order. Its text is read and checked as itself, and so is every text that gives its fields
in another order or leaves out some that have their defaults. -/
theorem checked_however_written (c : Config) :
    (∀ d, c.checked = .ok d ↔ d = c ∧ c.Sound) ∧
    (∀ e, c.checked = .error e ↔
      ¬ c.Sound ∧ e = .invalid (c.possibleProblems.filter fun p => c.Has p)) ∧
    ofText c.toText = c.checked ∧
    (∀ fs, Abridges fs c → ofText (Json.layout fs) = ofText c.toText) ∧
    ∀ fs t, Abridges fs c → Json.parse? t = some (.mk fs) → ofText t = ofText c.toText := by
  have htext : ofText c.toText = c.checked := c.fields_abridges.ofText_eq (Json.parse?_layout _)
  refine ⟨fun d => checked_eq_ok_iff, fun e => checked_eq_error_iff, htext, fun fs h => ?_,
    fun fs t h ht => ?_⟩
  · rw [htext]
    exact h.ofText_eq (Json.parse?_layout fs)
  · rw [htext]
    exact h.ofText_eq ht

/-- Two fields are enough for a configuration with two problems, in any order. -/
theorem checked_however_written_brief :
    Abridges [("step_interval_ms", .nat 0), ("binding_capacity", .nat 31)]
      { bindingCapacity := 31, stepInterval := 0 } ∧
    ofText (Json.layout [("step_interval_ms", .nat 0), ("binding_capacity", .nat 31)]) =
      .error (.invalid [.bindingCapacity 31, .zeroStepInterval]) ∧
    ofText (Json.mk [("step_interval_ms", .nat 0), ("binding_capacity", .nat 31)]).compact =
      .error (.invalid [.bindingCapacity 31, .zeroStepInterval]) := by
  have hbrief : Abridges [("step_interval_ms", .nat 0), ("binding_capacity", .nat 31)]
      { bindingCapacity := 31, stepInterval := 0 } := by
    constructor
    case subperm =>
      exact ⟨[("binding_capacity", .nat 31), ("step_interval_ms", .nat 0)], .swap ..,
        .cons_cons _ (.cons _ (.cons _ (.cons_cons _ (List.nil_sublist _))))⟩
    case left_out =>
      intro f hf hout
      simp only [fields, List.mem_cons, List.not_mem_nil, or_false] at hf hout ⊢
      rcases hf with rfl | rfl | rfl | rfl | rfl | rfl | rfl <;> simp_all
  obtain ⟨-, -, htext, hlayout, hparse⟩ :=
    checked_however_written { bindingCapacity := 31, stepInterval := 0 }
  have hchecked : ofText (toText { bindingCapacity := 31, stepInterval := 0 }) =
      .error (.invalid [.bindingCapacity 31, .zeroStepInterval]) := by
    rw [htext]
    decide
  exact ⟨hbrief, (hlayout _ hbrief).trans hchecked,
    (hparse _ _ hbrief (Json.parse?_compact _)).trans hchecked⟩

end Config

end MeshNode
