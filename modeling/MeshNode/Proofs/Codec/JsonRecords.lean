import Mathlib.Data.List.Nodup
import MeshNode.Json.Basic

/-! # The parts of JSON values are read back

The fields of a record are found under their names, and words, lists and values that may be missing
are read as they were written.
-/

namespace MeshNode.Json

variable {α β γ : Type}

/-! ## Records -/

theorem mapM_map {f : α → Option β} {k : γ → α} {g : γ → β} {as : List γ}
    (h : ∀ a ∈ as, f (k a) = some (g a)) : (as.map k).mapM f = some (as.map g) := by
  induction as with
  | nil => rfl
  | cons a as ih =>
    rw [List.map_cons, List.mapM_cons, h a List.mem_cons_self,
      ih fun b hb => h b (List.mem_cons_of_mem a hb)]
    rfl

theorem filter_key {fields : List (String × Json)} (hn : (fields.map Prod.fst).Nodup)
    {f : String × Json} (hf : f ∈ fields) : fields.filter (·.1 = f.1) = [f] := by
  induction fields with
  | nil => cases hf
  | cons g fields ih =>
    obtain ⟨hg, hn⟩ := List.nodup_cons.mp hn
    rcases List.mem_cons.mp hf with rfl | hf
    · have hnone : fields.filter (·.1 = f.1) = [] := by
        refine List.filter_eq_nil_iff.mpr fun g' hg' heq => hg ?_
        exact List.mem_map.mpr ⟨g', hg', of_decide_eq_true heq⟩
      rw [List.filter_cons_of_pos (by simp), hnone]
    · have hne : g.1 ≠ f.1 := fun heq => hg (List.mem_map.mpr ⟨f, hf, heq.symm⟩)
      rw [List.filter_cons_of_neg (by simpa using hne), ih hn hf]

theorem unique?_of_mem {fields : List (String × Json)} (hn : (fields.map Prod.fst).Nodup)
    {f : String × Json} (hf : f ∈ fields) :
    unique? (fields.map fun f => (some f.1, f.2)) f.1 = some (some f.2) := by
  have hfilter : (fields.map fun f => (some f.1, f.2)).filter (·.1 = some f.1) =
      [(some f.1, f.2)] := by
    rw [List.filter_map]
    simpa [Function.comp_def] using congrArg (List.map fun f => (some f.1, f.2)) (filter_key hn hf)
  rw [unique?, hfilter]

theorem unique?_of_notMem {fields : List (String × Json)} {name : String}
    (h : name ∉ fields.map Prod.fst) :
    unique? (fields.map fun f => (some f.1, f.2)) name = some none := by
  have hfilter : (fields.map fun f => (some f.1, f.2)).filter (·.1 = some name) = [] := by
    refine List.filter_eq_nil_iff.mpr fun g hg heq => h ?_
    obtain ⟨f, hf, rfl⟩ := List.mem_map.mp hg
    exact List.mem_map.mpr ⟨f, hf, Option.some.inj (of_decide_eq_true heq)⟩
  rw [unique?, hfilter]

theorem record?_of_fields (names : List String) (fields : List (String × Json)) :
    record? names (mk fields) = names.mapM (unique? (fields.map fun f => (some f.1, f.2))) := by
  rw [mk, record?, if_pos (by simp)]

theorem record?_mk (fields : List (String × Json)) (hn : (fields.map Prod.fst).Nodup) :
    record? (fields.map Prod.fst) (mk fields) = some (fields.map fun f => some f.2) := by
  rw [record?_of_fields]
  exact mapM_map fun f hf => unique?_of_mem hn hf

/-! ## Words -/

theorem nat?_nat {n bound : Nat} (h : n < bound) : (nat n).nat? bound = some n := by
  rw [nat, nat?, if_pos ⟨Int.natCast_nonneg n, Int.ofNat_lt.mpr h⟩]
  rfl

@[simp] theorem word8?_nat (w : UInt8) : (nat w.toNat).word8? = some w := by
  rw [word8?, nat?_nat w.toNat_lt_size, Option.map_some, UInt8.ofNat_toNat]

@[simp] theorem word16?_nat (w : UInt16) : (nat w.toNat).word16? = some w := by
  rw [word16?, nat?_nat w.toNat_lt_size, Option.map_some, UInt16.ofNat_toNat]

@[simp] theorem word32?_nat (w : UInt32) : (nat w.toNat).word32? = some w := by
  rw [word32?, nat?_nat w.toNat_lt_size, Option.map_some, UInt32.ofNat_toNat]

@[simp] theorem word64?_nat (w : UInt64) : (nat w.toNat).word64? = some w := by
  rw [word64?, nat?_nat w.toNat_lt_size, Option.map_some, UInt64.ofNat_toNat]

/-! ## Lists and values that may be missing -/

theorem list?_map {read : Json → Option α} {write : α → Json} {as : List α}
    (h : ∀ a ∈ as, read (write a) = some a) : (arr (as.map write)).list? read = some as := by
  have hread : (as.map write).mapM read = some (as.map id) := mapM_map h
  rw [list?, arr?, Option.bind_some, hread, List.map_id]

theorem option?_of_ne_null {read : Json → Option α} {j : Json} (h : j ≠ null) :
    option? read j = (read j).map some := by
  rw [option?]
  exact h

end MeshNode.Json
