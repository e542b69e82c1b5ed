import Mathlib.Data.String.Basic
import Mathlib.Tactic.Ring
import MeshNode.Instant.Text
import MeshNode.Proofs.Codec.Numerals

/-! # Timestamps are read back

The text of an instant is read as that instant, to the nanosecond and in every year that there is.
-/

namespace MeshNode

namespace Text

variable {n w : Nat} {c : Char} {cs : List Char}

theorem toNat_of_isDigit (h : isDigit c = true) : 48 ≤ c.toNat ∧ c.toNat ≤ 57 := by
  obtain ⟨hlo, hhi⟩ := Bool.and_eq_true_iff.mp h
  exact ⟨of_decide_eq_true hlo, of_decide_eq_true hhi⟩

theorem not_isBlank_of_isDigit (h : isDigit c = true) : isBlank c = false := by
  obtain ⟨hlo, hhi⟩ := toNat_of_isDigit h
  simp only [isBlank, blankRanges, List.any_cons, List.any_nil, Bool.or_false, Bool.or_eq_false_iff,
    Bool.and_eq_false_iff, decide_eq_false_iff_not]
  omega

theorem skipBlanks_cons (h : isBlank c = false) (cs : List Char) :
    skipBlanks (c :: cs) = c :: cs :=
  List.dropWhile_cons_of_neg (by simp [h])

theorem padded_eq_cons (hw : 0 < w) (n : Nat) :
    ∃ c cs, padded w n = c :: cs ∧ isDigit c = true := by
  obtain ⟨c, cs, heq⟩ := List.exists_cons_of_length_pos ((length_padded w n).symm ▸ hw)
  exact ⟨c, cs, heq, isDigit_of_mem_padded (by rw [heq]; exact List.mem_cons_self)⟩

theorem skipBlanks_padded (hw : 0 < w) (n : Nat) (cs : List Char) :
    skipBlanks (padded w n ++ cs) = padded w n ++ cs := by
  obtain ⟨c, ds, heq, hc⟩ := padded_eq_cons hw n
  rw [heq]
  exact skipBlanks_cons (not_isBlank_of_isDigit hc) _

theorem ofDigits_append_zeros (ds : List Char) (k : Nat) :
    ofDigits (ds ++ List.replicate k '0') = ofDigits ds * 10 ^ k := by
  induction k with
  | zero => simp
  | succ k ih =>
    have hzero : digitVal '0' = 0 := rfl
    rw [List.replicate_succ', ← List.append_assoc, ofDigits_concat, ih, hzero]
    ring

end Text

namespace Instant

open Text

variable {n k w year : Nat} {ds rest : List Char}

/-! ## Numbers -/

theorem number?_of_takeWhile {cs : List Char} (hne : ds ≠ [])
    (h : (cs.take w).takeWhile isDigit = ds) :
    number? w cs = some (ofDigits ds, cs.drop ds.length) := by
  rw [number?, h]
  cases ds with
  | nil => exact absurd rfl hne
  | cons c ds => rfl

theorem number?_padded (hw : 0 < w) (h : n < 10 ^ w) (rest : List Char) :
    number? w (padded w n ++ rest) = some (n, rest) := by
  have hdigits : ((padded w n ++ rest).take w).takeWhile isDigit = padded w n := by
    rw [List.take_left' (length_padded w n)]
    exact List.takeWhile_eq_self_iff.mpr fun _ => isDigit_of_mem_padded
  have hne : padded w n ≠ [] := by
    obtain ⟨c, cs, heq, -⟩ := padded_eq_cons hw n
    rw [heq]
    exact List.cons_ne_nil c cs
  rw [number?_of_takeWhile hne hdigits, List.drop_left, ofDigits_padded h]

theorem number?_run (hne : ds ≠ []) (hd : ∀ c ∈ ds, isDigit c = true) (hr : EndsDigits rest) :
    number? (ds ++ rest).length (ds ++ rest) = some (ofDigits ds, rest) := by
  have hdigits : ((ds ++ rest).take (ds ++ rest).length).takeWhile isDigit = ds := by
    rw [List.take_length, takeWhile_isDigit hd hr]
  rw [number?_of_takeWhile hne hdigits, List.drop_left]

theorem mark?_cons {c : Char} (h : isBlank c = false) (cs : List Char) :
    mark? c (c :: cs) = some cs := by
  rw [mark?, skipBlanks_cons h]
  exact if_pos rfl

/-! ## Dates -/

theorem yearDigits (n : Nat) :
    ∃ ds, (if n < 10000 then padded 4 n else digits n) = ds ∧ ds ≠ [] ∧
      (∀ c ∈ ds, isDigit c = true) ∧ ofDigits ds = n := by
  refine ⟨_, rfl, ?_⟩
  split
  next h =>
    obtain ⟨c, cs, heq, -⟩ := padded_eq_cons (w := 4) (by decide) n
    refine ⟨by rw [heq]; exact List.cons_ne_nil c cs, fun _ => isDigit_of_mem_padded, ?_⟩
    exact ofDigits_padded h
  next => exact ⟨digits_ne_nil n, fun _ => isDigit_of_mem_digits, ofDigits_digits n⟩

theorem year?_yearText (y : Int) (hr : EndsDigits rest) :
    year? (yearText y ++ rest) = some (y, rest) := by
  rw [yearText]
  split
  next h =>
    obtain ⟨c, cs, heq, hc⟩ := padded_eq_cons (w := 4) (by decide) y.toNat
    have hplain : year? (padded 4 y.toNat ++ rest) =
        (number? 4 (padded 4 y.toNat ++ rest)).map fun r => ((r.1 : Int), r.2) := by
      rw [heq, List.cons_append, year?]
      all_goals
        rintro _ hsign
        obtain rfl := (List.cons.inj hsign).1
        cases hc
    have hval : (y.toNat : Int) = y := by omega
    rw [hplain, number?_padded (by decide) (by omega), Option.map_some, hval]
  next h =>
    obtain ⟨ds, heq, hne, hd, hn⟩ := yearDigits y.natAbs
    rw [heq, List.cons_append]
    split
    next hneg =>
      have hval : -(y.natAbs : Int) = y := by omega
      rw [year?, number?_run hne hd hr, Option.map_some, hn, hval]
    next hneg =>
      have hval : (y.natAbs : Int) = y := by omega
      rw [year?, number?_run hne hd hr, Option.map_some, hn, hval]

theorem skipBlanks_yearText (y : Int) (cs : List Char) :
    skipBlanks (yearText y ++ cs) = yearText y ++ cs := by
  rw [yearText]
  split
  next => exact skipBlanks_padded (by decide) _ cs
  next =>
    split
    · exact skipBlanks_cons (by decide) _
    · exact skipBlanks_cons (by decide) _

theorem date?_dateText (d : Date) (rest : List Char) :
    date? (dateText d ++ rest) = some (d, rest) := by
  have hdays : Calendar.daysIn d.year d.month ≤ 31 := by
    unfold Calendar.daysIn
    split_ifs <;> decide
  have hmonth : d.month < 10 ^ 2 := by have := d.month_mem; omega
  have hday : d.day < 10 ^ 2 := by have := d.day_mem; omega
  have hparts : Date.ofParts? d.year d.month d.day = some d := by
    rw [Date.ofParts?, dif_pos ⟨d.year_mem, d.month_mem, d.day_mem⟩]
  rw [dateText, List.append_assoc, List.cons_append, List.append_assoc, List.cons_append, date?,
    skipBlanks_yearText, year?_yearText d.year (endsDigits_cons (by decide))]
  simp only [bind, Option.bind, mark?_cons (c := '-') (by decide),
    skipBlanks_padded (w := 2) (by decide), number?_padded (w := 2) (by decide) hmonth,
    number?_padded (w := 2) (by decide) hday, hparts]
  rfl

/-! ## Fractions -/

theorem nanoOf_padded (h : k ≤ 9) (hn : n < 10 ^ k) :
    nanoOf (padded k n) = n * 10 ^ (9 - k) := by
  have htake : (padded k n ++ List.replicate 9 '0').take 9 =
      padded k n ++ List.replicate (9 - k) '0' := by
    rw [List.take_append, length_padded, List.take_of_length_le (by rwa [length_padded]),
      List.take_replicate, Nat.min_eq_left (Nat.sub_le 9 k)]
  rw [nanoOf, htake, ofDigits_append_zeros, ofDigits_padded hn]

theorem fraction?_padded (hk : 0 < k) (h : k ≤ 9) (hn : n < 10 ^ k) (hr : EndsDigits rest) :
    fraction? ('.' :: (padded k n ++ rest)) = some (n * 10 ^ (9 - k), rest) := by
  have htake := takeWhile_isDigit (fun _ => isDigit_of_mem_padded (w := k) (n := n)) hr
  have hdrop := dropWhile_isDigit (fun _ => isDigit_of_mem_padded (w := k) (n := n)) hr
  obtain ⟨c, cs, heq, -⟩ := padded_eq_cons hk n
  rw [fraction?, htake, hdrop, ← nanoOf_padded h hn, heq]

theorem fraction?_fractionText (hn : n < 1000000000) :
    fraction? (fractionText n ++ ['Z']) = some (n, ['Z']) := by
  have hend : EndsDigits ['Z'] := endsDigits_cons (by decide)
  rw [fractionText]
  split
  next h =>
    rw [h]
    rfl
  next =>
    split
    next h =>
      have hval : n / 1000000 * 10 ^ (9 - 3) = n := by omega
      rw [List.cons_append, fraction?_padded (by decide) (by decide) (by omega) hend, hval]
    next =>
      split
      next h =>
        have hval : n / 1000 * 10 ^ (9 - 6) = n := by omega
        rw [List.cons_append, fraction?_padded (by decide) (by decide) (by omega) hend, hval]
      next => rw [List.cons_append, fraction?_padded (by decide) (by decide) (by omega) hend]; simp

/-! ## Instants -/

theorem minutesBefore?_zero (i : Instant) : i.minutesBefore? 0 = some i := by
  have hhour := i.hour_lt
  have hminute := i.minute_lt
  have hparts : ofParts? i.date i.hour i.minute i.second i.nano = some i := by
    rw [ofParts?, dif_pos ⟨i.hour_lt, i.minute_lt, i.second_le, i.nano_lt⟩]
  have hh : (((i.hour : Int) * 60 + i.minute - 0) / 60).toNat = i.hour := by omega
  have hm : (((i.hour : Int) * 60 + i.minute - 0) % 60).toNat = i.minute := by omega
  rw [minutesBefore?, if_neg (by omega), if_neg (by omega), hh, hm, hparts]

theorem ofChars?_render (i : Instant) : ofChars? (render i) = some i := by
  have hhour : i.hour < 10 ^ 2 := by have := i.hour_lt; omega
  have hminute : i.minute < 10 ^ 2 := by have := i.minute_lt; omega
  have hsecond : i.second < 10 ^ 2 := by have := i.second_le; omega
  have hparts : ofParts? i.date i.hour i.minute i.second i.nano = some i := by
    rw [ofParts?, dif_pos ⟨i.hour_lt, i.minute_lt, i.second_le, i.nano_lt⟩]
  rw [render, ofChars?, date?_dateText]
  simp only [bind, Option.bind, afterDate?, timeText, List.append_assoc, List.cons_append,
    skipBlanks_padded (w := 2) (by decide), number?_padded (w := 2) (by decide) hhour,
    mark?_cons (c := ':') (by decide), number?_padded (w := 2) (by decide) hminute,
    number?_padded (w := 2) (by decide) hsecond, fraction?_fractionText i.nano_lt,
    skipBlanks_cons (c := 'Z') (by decide), offset?, hparts]
  exact minutesBefore?_zero i

/-- The text of an instant is read as that instant. -/
theorem ofText?_toText (i : Instant) : ofText? i.toText = some i := by
  rw [ofText?, toText, String.toList_ofList]
  exact ofChars?_render i

/-! ## Sizes -/

theorem length_yearText_le (d : Date) : (yearText d.year).length ≤ 262145 := by
  have hyear := d.year_mem
  have hdigits := length_digits_le d.year.natAbs
  simp only [Calendar.firstYear, Calendar.lastYear] at hyear
  rw [yearText]
  split
  · rw [length_padded]
    decide
  · rw [List.length_cons]
    split
    · rw [length_padded]
      decide
    · omega

theorem length_fractionText_le (n : Nat) : (fractionText n).length ≤ 10 := by
  unfold fractionText
  split_ifs <;> simp

theorem utf8Len_le (cs : List Char) : String.utf8Len cs ≤ 4 * cs.length := by
  induction cs with
  | nil => exact Nat.zero_le _
  | cons c cs ih =>
    have hc := c.utf8Size_le_four
    rw [String.utf8Len_cons, List.length_cons]
    omega

theorem utf8ByteSize_toText_lt (i : Instant) : i.toText.utf8ByteSize < UInt64.size := by
  have hyear := length_yearText_le i.date
  have hfraction := length_fractionText_le i.nano
  have hlen : (render i).length ≤ 262175 := by
    simp only [render, dateText, timeText, List.length_append, List.length_cons, List.length_nil,
      length_padded]
    omega
  calc i.toText.utf8ByteSize = String.utf8Len (render i) := String.utf8ByteSize_ofList _
    _ ≤ 4 * (render i).length := utf8Len_le _
    _ ≤ 4 * 262175 := Nat.mul_le_mul_left 4 hlen
    _ < UInt64.size := by decide

end Instant

end MeshNode
