import Mathlib.Algebra.Group.Nat.Defs
import Mathlib.Data.List.TakeWhile
import MeshNode.Text.Decimal
import MeshNode.Text.Hex

/-! # Numerals are read back

The digits that a number is written with are digits, they give the number back, and they end where
something else follows.
-/

namespace MeshNode.Text

variable {n d w : Nat} {c : Char} {cs ds rest : List Char}

/-! ## Decimal digits -/

theorem isDigit_digitChar (h : d < 10) : isDigit (digitChar d) = true := by
  have hall : ∀ d < 10, isDigit (digitChar d) = true := by decide
  exact hall d h

@[simp] theorem digitVal_digitChar (h : d < 10) : digitVal (digitChar d) = d := by
  have hall : ∀ d < 10, digitVal (digitChar d) = d := by decide
  exact hall d h

theorem digitChar_ne_zero (h : d < 10) (hd : 0 < d) : digitChar d ≠ '0' := by
  have hall : ∀ d < 10, 0 < d → digitChar d ≠ '0' := by decide
  exact hall d h hd

theorem ofDigits_concat (ds : List Char) (c : Char) :
    ofDigits (ds ++ [c]) = 10 * ofDigits ds + digitVal c :=
  List.foldl_append

@[simp] theorem ofDigits_digits (n : Nat) : ofDigits (digits n) = n := by
  fun_induction digits n with
  | case1 n h => simp [ofDigits, digitVal_digitChar h]
  | case2 n h ih =>
    rw [ofDigits_concat, ih, digitVal_digitChar (Nat.mod_lt n (by decide))]
    omega

theorem isDigit_of_mem_digits (h : c ∈ digits n) : isDigit c = true := by
  fun_induction digits n with
  | case1 n hn =>
    obtain rfl := List.mem_singleton.mp h
    exact isDigit_digitChar hn
  | case2 n hn ih =>
    rcases List.mem_append.mp h with h | h
    · exact ih h
    · obtain rfl := List.mem_singleton.mp h
      exact isDigit_digitChar (Nat.mod_lt n (by decide))

theorem digits_eq_cons (hn : 0 < n) : ∃ c cs, digits n = c :: cs ∧ c ≠ '0' := by
  fun_induction digits n with
  | case1 n h => exact ⟨_, [], rfl, digitChar_ne_zero h hn⟩
  | case2 n h ih =>
    obtain ⟨c, cs, heq, hc⟩ := ih (by omega)
    exact ⟨c, _, by rw [heq, List.cons_append], hc⟩

theorem digits_zero : digits 0 = ['0'] := by
  unfold digits
  rfl

theorem digits_ne_nil (n : Nat) : digits n ≠ [] := by
  unfold digits
  split <;> simp

theorem length_digits_le (n : Nat) : (digits n).length ≤ n + 1 := by
  fun_induction digits n with
  | case1 n h => simp
  | case2 n h ih =>
    rw [List.length_append, List.length_singleton]
    omega

@[simp] theorem length_padded (w n : Nat) : (padded w n).length = w := by
  induction w generalizing n with
  | zero => rfl
  | succ w ih => rw [padded, List.length_append, ih, List.length_singleton]

theorem ofDigits_padded (h : n < 10 ^ w) : ofDigits (padded w n) = n := by
  induction w generalizing n with
  | zero => exact (Nat.lt_one_iff.mp h).symm
  | succ w ih =>
    have hdiv : n / 10 < 10 ^ w := Nat.div_lt_of_lt_mul (by rwa [Nat.mul_comm])
    rw [padded, ofDigits_concat, ih hdiv, digitVal_digitChar (Nat.mod_lt n (by decide))]
    omega

theorem isDigit_of_mem_padded (h : c ∈ padded w n) : isDigit c = true := by
  induction w generalizing n with
  | zero => cases h
  | succ w ih =>
    rcases List.mem_append.mp h with h | h
    · exact ih h
    · obtain rfl := List.mem_singleton.mp h
      exact isDigit_digitChar (Nat.mod_lt n (by decide))

/-! ## Where a run of digits ends -/

def EndsDigits (rest : List Char) : Prop := ∀ c ∈ rest.head?, isDigit c = false

theorem endsDigits_cons (h : isDigit c = false) : EndsDigits (c :: cs) := by
  rintro _ ⟨⟩
  exact h

theorem takeWhile_isDigit (hd : ∀ c ∈ ds, isDigit c = true) (hr : EndsDigits rest) :
    (ds ++ rest).takeWhile isDigit = ds := by
  rw [List.takeWhile_append_of_pos hd]
  cases rest with
  | nil => rw [List.takeWhile_nil, List.append_nil]
  | cons c rest =>
    rw [List.takeWhile_cons_of_neg (by simp [hr c rfl]), List.append_nil]

theorem dropWhile_isDigit (hd : ∀ c ∈ ds, isDigit c = true) (hr : EndsDigits rest) :
    (ds ++ rest).dropWhile isDigit = rest := by
  rw [List.dropWhile_append_of_pos hd]
  cases rest with
  | nil => rfl
  | cons c rest => exact List.dropWhile_cons_of_neg (by simp [hr c rfl])

/-! ## Hexadecimal digits -/

theorem hexVal?_hexChar (h : d < 16) : hexVal? (hexChar d) = some d := by
  have hall : ∀ d < 16, hexVal? (hexChar d) = some d := by decide
  exact hall d h

end MeshNode.Text
