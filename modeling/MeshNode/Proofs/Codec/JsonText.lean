import MeshNode.Json.Reader
import MeshNode.Json.Writer
import MeshNode.Proofs.Codec.Numerals

/-! # JSON values are read back

What is written for a JSON value is read as that value, whatever follows it that does not run on
from a numeral. `parse?_compact` and `parse?_layout` say so of whole texts.
-/

namespace MeshNode.Json

open Text

variable {c : Char} {cs rest : List Char} {fuel n : Nat}

/-! ## Strings -/

/-- A character is written as it is, as an escape of one letter, or as a code unit. -/
theorem escape_cases (c : Char) :
    (∃ d, escape c = ['\\', d] ∧ d ≠ 'u' ∧ escaped? d = some c) ∨
      c.toNat < 0x20 ∧ escape c = '\\' :: 'u' :: hexPadded 4 c.toNat ∨
      escape c = [c] ∧ c ≠ '"' ∧ c ≠ '\\' ∧ ¬ c.toNat < 0x20 := by
  unfold escape
  repeat' split
  iterate 7
    next h =>
      subst h
      exact .inl ⟨_, rfl, by decide, rfl⟩
  next h => exact .inr (.inl ⟨h, rfl⟩)
  next hquote hslash _ _ _ _ _ hcontrol => exact .inr (.inr ⟨rfl, hquote, hslash, hcontrol⟩)

theorem pieces?_plain (hquote : c ≠ '"') (hslash : c ≠ '\\') (hcontrol : ¬ c.toNat < 0x20)
    (cs : List Char) : pieces? (c :: cs) = (pieces? cs).map fun r => (.char c :: r.1, r.2) := by
  rw [pieces?.eq_def]
  simp [hslash, hcontrol]

theorem pieces?_letter {d : Char} (hd : d ≠ 'u') (h : escaped? d = some c) (cs : List Char) :
    pieces? ('\\' :: d :: cs) = (pieces? cs).map fun r => (.char c :: r.1, r.2) := by
  rw [pieces?.eq_def]
  cases hrest : pieces? cs <;> simp [hd, h, hrest]

theorem pieces?_unit (h : n < 0x10000) (cs : List Char) :
    pieces? ('\\' :: 'u' :: (hexPadded 4 n ++ cs)) =
      (pieces? cs).map fun r => (.ofUnit n :: r.1, r.2) := by
  have hval (k : Nat) : hexVal? (hexChar (k % 16)) = some (k % 16) :=
    hexVal?_hexChar (Nat.mod_lt k (by decide))
  have hn :
      ((n / 16 / 16 / 16 % 16 * 16 + n / 16 / 16 % 16) * 16 + n / 16 % 16) * 16 + n % 16 = n := by
    omega
  cases hrest : pieces? cs <;> simp [hexPadded, pieces?, unit?, hval, hn, hrest]

theorem ofUnit_of_lt (h : n < 0xD800) : Piece.ofUnit n = .char (Char.ofNat n) := by
  rw [Piece.ofUnit, if_neg (by omega), if_neg (by omega)]

theorem pieces?_escape (c : Char) (cs : List Char) :
    pieces? (escape c ++ cs) = (pieces? cs).map fun r => (.char c :: r.1, r.2) := by
  rcases escape_cases c with ⟨d, heq, hd, hc⟩ | ⟨hc, heq⟩ | ⟨heq, hquote, hslash, hcontrol⟩
  · rw [heq]
    exact pieces?_letter hd hc cs
  · rw [heq]
    have hunit : Piece.ofUnit c.toNat = .char c := by
      rw [ofUnit_of_lt (by omega), Char.ofNat_toNat]
    rw [← hunit]
    exact pieces?_unit (by omega) cs
  · rw [heq]
    exact pieces?_plain hquote hslash hcontrol cs

theorem pieces?_flatMap (cs rest : List Char) :
    pieces? (cs.flatMap escape ++ '"' :: rest) = some (cs.map .char, rest) := by
  induction cs with
  | nil => rfl
  | cons c cs ih => simp only [List.flatMap_cons, List.append_assoc, pieces?_escape, ih,
      Option.map_some, List.map_cons]

theorem join_char (cs : List Char) : Piece.join (cs.map .char) = some cs := by
  induction cs with
  | nil => rfl
  | cons c cs ih => simp [Piece.join, ih]

/-- A string is read back, and half of a surrogate pair too. -/
theorem string?_quoteText (s : Option String) (rest : List Char) :
    ∃ cs, quoteText s ++ rest = '"' :: cs ∧ string? cs = some (s, rest) := by
  cases s with
  | none => exact ⟨_, rfl, rfl⟩
  | some s =>
    refine ⟨s.toList.flatMap escape ++ '"' :: rest, by simp [quoteText, quote], ?_⟩
    rw [string?, pieces?_flatMap]
    simp [join_char]

/-! ## Numerals -/

/-- Nothing follows that would go on with a numeral. -/
def EndsNumeral (rest : List Char) : Prop :=
  ∀ c ∈ rest.head?, isDigit c = false ∧ c ≠ '.' ∧ c ≠ 'e' ∧ c ≠ 'E'

theorem EndsNumeral.endsDigits (h : EndsNumeral rest) : EndsDigits rest := fun c hc => (h c hc).1

theorem wholePart?_digits (n : Nat) (hr : EndsDigits rest) :
    wholePart? (digits n ++ rest) = some (digits n, rest) := by
  rcases Nat.eq_zero_or_pos n with rfl | hn
  · rw [digits_zero]
    rfl
  · obtain ⟨c, cs, heq, hc⟩ := digits_eq_cons hn
    have htake := takeWhile_isDigit (fun _ => isDigit_of_mem_digits (n := n)) hr
    have hdrop := dropWhile_isDigit (fun _ => isDigit_of_mem_digits (n := n)) hr
    have hwhole : wholePart? (digits n ++ rest) = someDigits? (digits n ++ rest) := by
      rw [heq, List.cons_append, wholePart?]
      simpa using hc
    rw [hwhole, someDigits?, htake, hdrop, heq]

theorem fraction?_of_ends (h : EndsNumeral rest) : fraction? rest = some (false, rest) := by
  cases rest with
  | nil => rfl
  | cons c rest =>
    rw [fraction?]
    rintro _ heq
    exact (h c rfl).2.1 (List.cons.inj heq).1

theorem exponent?_of_ends (h : EndsNumeral rest) : exponent? rest = some (false, rest) := by
  cases rest with
  | nil => rfl
  | cons c rest =>
    rw [exponent?]
    · rintro _ heq
      exact (h c rfl).2.2.1 (List.cons.inj heq).1
    · rintro _ heq
      exact (h c rfl).2.2.2 (List.cons.inj heq).1

theorem numeral?_digits (negative : Bool) (n : Nat) (hr : EndsNumeral rest) :
    numeral? negative (digits n ++ rest) = some
      (if negative && n = 0 then real else int (if negative then -(n : Int) else n), rest) := by
  rw [numeral?, wholePart?_digits n hr.endsDigits]
  simp only [bind, Option.bind, fraction?_of_ends hr, exponent?_of_ends hr, ofDigits_digits,
    Bool.false_or, pure]
  split <;> simp_all

theorem number?_signed (i : Int) (hr : EndsNumeral rest) :
    number? (signed i ++ rest) = some (int i, rest) := by
  rw [signed]
  split
  next h =>
    have hne : i.natAbs ≠ 0 := by omega
    have hval : -(i.natAbs : Int) = i := by omega
    rw [List.cons_append, number?, numeral?_digits true _ hr]
    simp only [hne, hval, decide_false, Bool.and_false, Bool.false_eq_true, if_false, if_true]
  next h =>
    have hval : (i.natAbs : Int) = i := by omega
    obtain ⟨c, cs, heq⟩ := List.exists_cons_of_ne_nil (digits_ne_nil i.natAbs)
    have hc : isDigit c = true := isDigit_of_mem_digits (by rw [heq]; exact List.mem_cons_self)
    have hplain : number? (digits i.natAbs ++ rest) = numeral? false (digits i.natAbs ++ rest) := by
      rw [heq, List.cons_append, number?]
      rintro _ hminus
      obtain rfl := (List.cons.inj hminus).1
      cases hc
    rw [hplain, numeral?_digits false _ hr]
    simp only [hval, Bool.false_and, Bool.false_eq_true, if_false]

/-! ## Values -/

theorem signed_eq_cons (i : Int) : ∃ c cs, signed i = c :: cs ∧ (c = '-' ∨ isDigit c = true) := by
  rw [signed]
  split
  · exact ⟨_, _, rfl, .inl rfl⟩
  · obtain ⟨c, cs, heq⟩ := List.exists_cons_of_ne_nil (digits_ne_nil i.natAbs)
    exact ⟨c, cs, heq, .inr (isDigit_of_mem_digits (by rw [heq]; exact List.mem_cons_self))⟩

theorem skip_cons (h : isSpace c = false) (cs : List Char) : skip (c :: cs) = c :: cs :=
  List.dropWhile_cons_of_neg (by simp [h])

theorem not_isSpace_of_numeral (h : c = '-' ∨ isDigit c = true) : isSpace c = false := by
  by_contra hspace
  simp only [isSpace, Bool.not_eq_false, Bool.or_eq_true, decide_eq_true_eq] at hspace
  rcases hspace with ((rfl | rfl) | rfl) | rfl <;> revert h <;> decide

theorem value?_of_numeral (h : c = '-' ∨ isDigit c = true) (fuel : Nat) (cs : List Char) :
    value? (fuel + 1) (c :: cs) = number? (c :: cs) := by
  rw [value?, skip_cons (not_isSpace_of_numeral h)]
  split
  case h_7 => rfl
  all_goals
    next heq =>
      obtain rfl := (List.cons.inj heq).1
      exact absurd h (by decide)

/-- A value starts with no blank and with no closing bracket. -/
theorem render_eq_cons (j : Json) :
    ∃ c cs, render j = c :: cs ∧ isSpace c = false ∧ c ≠ ']' := by
  cases j with
  | null => exact ⟨_, _, by rw [render], by decide, by decide⟩
  | bool b => cases b <;> exact ⟨_, _, by rw [render], by decide, by decide⟩
  | int i =>
    obtain ⟨c, cs, heq, hc⟩ := signed_eq_cons i
    refine ⟨c, cs, by rw [render, heq], not_isSpace_of_numeral hc, ?_⟩
    rintro rfl
    revert hc
    decide
  | real => exact ⟨_, _, by rw [render], by decide, by decide⟩
  | str s =>
    cases s with
    | none => exact ⟨_, _, by rw [render, quoteText], by decide, by decide⟩
    | some s =>
      exact ⟨_, _, by rw [render, quoteText, quote, List.cons_append], by decide, by decide⟩
  | arr items => exact ⟨_, _, by rw [render, List.cons_append], by decide, by decide⟩
  | obj fields => exact ⟨_, _, by rw [render, List.cons_append], by decide, by decide⟩

theorem length_render_pos (j : Json) : 0 < (render j).length := by
  obtain ⟨c, cs, heq, -⟩ := render_eq_cons j
  rw [heq]
  exact Nat.succ_pos _

theorem endsNumeral_cons (h : c = ',' ∨ c = ']' ∨ c = '}') (cs : List Char) :
    EndsNumeral (c :: cs) := by
  rintro _ ⟨⟩
  rcases h with rfl | rfl | rfl <;> decide

theorem expect?_cons (h : isSpace c = false) (cs : List Char) : expect? c (c :: cs) = some cs := by
  rw [expect?, skip_cons h]
  exact if_pos rfl

theorem expect?_of_ne {d : Char} (h : isSpace c = false) (hd : c ≠ d) (cs : List Char) :
    expect? d (c :: cs) = none := by
  rw [expect?, skip_cons h]
  exact if_neg hd

theorem renderItems_cons_cons (v w : Json) (vs : List Json) :
    renderItems (v :: w :: vs) = render v ++ ',' :: renderItems (w :: vs) := by
  rw [renderItems]
  exact List.cons_ne_nil _ _

theorem renderFields_cons_cons (k : Option String) (v : Json) (f : Option String × Json)
    (fs : List (Option String × Json)) : renderFields ((k, v) :: f :: fs) =
      quoteText k ++ ':' :: (render v ++ ',' :: renderFields (f :: fs)) := by
  rw [renderFields]
  exact List.cons_ne_nil _ _

theorem renderItems_eq_cons (v : Json) (vs : List Json) :
    ∃ c cs, renderItems (v :: vs) = c :: cs ∧ isSpace c = false ∧ c ≠ ']' := by
  obtain ⟨c, cs, heq, hc⟩ := render_eq_cons v
  cases vs with
  | nil => exact ⟨c, cs, by rw [renderItems, heq], hc⟩
  | cons w vs => exact ⟨c, _, by rw [renderItems_cons_cons, heq, List.cons_append], hc⟩

theorem quoteText_eq_cons (s : Option String) : ∃ cs, quoteText s = '"' :: cs := by
  cases s with
  | none => exact ⟨_, rfl⟩
  | some s => exact ⟨_, rfl⟩

theorem renderFields_eq_cons (f : Option String × Json) (fs : List (Option String × Json)) :
    ∃ cs, renderFields (f :: fs) = '"' :: cs := by
  obtain ⟨k, v⟩ := f
  obtain ⟨cs, heq⟩ := quoteText_eq_cons k
  cases fs with
  | nil => exact ⟨_, by rw [renderFields, heq, List.cons_append]⟩
  | cons f fs => exact ⟨_, by rw [renderFields_cons_cons, heq, List.cons_append]⟩

theorem fields?_comma (k : Option String) {v : Json} {text more : List Char}
    (hread : value? fuel text = some (v, rest)) (hskip : skip rest = ',' :: more) :
    fields? (fuel + 1) (quoteText k ++ ':' :: text) =
      (fields? fuel more).map fun r => ((k, v) :: r.1, r.2) := by
  obtain ⟨cs, heq, hs⟩ := string?_quoteText k (':' :: text)
  rw [heq, fields?]
  simp only [bind, Option.bind, expect?_cons (c := '"') (by decide),
    expect?_cons (c := ':') (by decide), hs, hread, hskip]
  cases fields? fuel more <;> rfl

theorem fields?_brace (k : Option String) {v : Json} {text more : List Char}
    (hread : value? fuel text = some (v, rest)) (hskip : skip rest = '}' :: more) :
    fields? (fuel + 1) (quoteText k ++ ':' :: text) = some ([(k, v)], more) := by
  obtain ⟨cs, heq, hs⟩ := string?_quoteText k (':' :: text)
  rw [heq, fields?]
  simp only [bind, Option.bind, expect?_cons (c := '"') (by decide),
    expect?_cons (c := ':') (by decide), hs, hread, hskip]
  rfl

mutual

/-- A written value is read back, if there is fuel for each of its characters. -/
theorem value?_render (j : Json) {fuel : Nat} {rest : List Char} (hf : (render j).length ≤ fuel)
    (hr : EndsNumeral rest) : value? fuel (render j ++ rest) = some (j, rest) := by
  -- Every reader below spends one unit of fuel and leaves at least one character behind it.
  obtain ⟨fuel, rfl⟩ : ∃ k, fuel = k + 1 :=
    Nat.exists_eq_add_one.mpr (Nat.lt_of_lt_of_le (length_render_pos j) hf)
  match j with
  | null => simp [render, value?, skip, isSpace]
  | bool true => simp [render, value?, skip, isSpace]
  | bool false => simp [render, value?, skip, isSpace]
  | int i =>
    obtain ⟨c, cs, heq, hc⟩ := signed_eq_cons i
    rw [render, ← number?_signed i hr, heq]
    exact value?_of_numeral hc fuel _
  | real =>
    have hzero : number? ('-' :: '0' :: rest) = some (real, rest) := by
      have := numeral?_digits true 0 hr
      rw [digits_zero] at this
      exact this
    rw [render, ← hzero]
    exact value?_of_numeral (.inl rfl) fuel _
  | str s =>
    obtain ⟨cs, heq, hs⟩ := string?_quoteText s rest
    rw [render, heq, value?, skip_cons (by decide)]
    simp [hs]
  | arr [] => simp [render, renderItems, value?, skip, isSpace, expect?]
  | arr (v :: vs) =>
    obtain ⟨c, cs, heq, hspace, hc⟩ := renderItems_eq_cons v vs
    have hlen : (renderItems (v :: vs)).length < fuel := by
      simp only [render, List.length_cons, List.length_append, List.length_nil] at hf
      omega
    have hnone : expect? ']' (renderItems (v :: vs) ++ ']' :: rest) = none := by
      rw [heq]
      exact expect?_of_ne hspace hc _
    rw [render, List.cons_append, List.cons_append, List.append_assoc, value?,
      skip_cons (by decide)]
    simp only [List.singleton_append, hnone, items?_render (v :: vs) (List.cons_ne_nil _ _) hlen,
      Option.map_some]
  | obj [] => simp [render, renderFields, value?, skip, isSpace, expect?]
  | obj (f :: fs) =>
    obtain ⟨cs, heq⟩ := renderFields_eq_cons f fs
    have hlen : (renderFields (f :: fs)).length < fuel := by
      simp only [render, List.length_cons, List.length_append, List.length_nil] at hf
      omega
    have hnone : expect? '}' (renderFields (f :: fs) ++ '}' :: rest) = none := by
      rw [heq]
      exact expect?_of_ne (by decide) (by decide) _
    rw [render, List.cons_append, List.cons_append, List.append_assoc, value?,
      skip_cons (by decide)]
    simp only [List.singleton_append, hnone, fields?_render (f :: fs) (List.cons_ne_nil _ _) hlen,
      Option.map_some]

theorem items?_render (vs : List Json) (hne : vs ≠ []) {fuel : Nat} {rest : List Char}
    (hf : (renderItems vs).length < fuel) :
    items? fuel (renderItems vs ++ ']' :: rest) = some (vs, rest) := by
  obtain ⟨fuel, rfl⟩ : ∃ k, fuel = k + 1 := Nat.exists_eq_add_one.mpr (Nat.zero_lt_of_lt hf)
  match vs with
  | [] => exact absurd rfl hne
  | [v] =>
    rw [renderItems] at hf ⊢
    rw [items?, value?_render v (Nat.le_of_lt_succ hf) (endsNumeral_cons (by simp) _)]
    rfl
  | v :: w :: vs =>
    have hv := length_render_pos v
    rw [renderItems_cons_cons] at hf ⊢
    simp only [List.length_append, List.length_cons] at hf
    rw [List.append_assoc, List.cons_append, items?,
      value?_render v (by omega) (endsNumeral_cons (by simp) _)]
    simp only [bind, Option.bind, skip_cons (c := ',') (by decide)]
    rw [items?_render (w :: vs) (List.cons_ne_nil _ _) (by omega)]
    rfl

theorem fields?_render (fs : List (Option String × Json)) (hne : fs ≠ []) {fuel : Nat}
    {rest : List Char} (hf : (renderFields fs).length < fuel) :
    fields? fuel (renderFields fs ++ '}' :: rest) = some (fs, rest) := by
  obtain ⟨fuel, rfl⟩ : ∃ k, fuel = k + 1 := Nat.exists_eq_add_one.mpr (Nat.zero_lt_of_lt hf)
  match fs with
  | [] => exact absurd rfl hne
  | [(k, v)] =>
    rw [renderFields] at hf ⊢
    simp only [List.length_append, List.length_cons] at hf
    have hread : value? fuel (render v ++ '}' :: rest) = some (v, '}' :: rest) :=
      value?_render v (by omega) (endsNumeral_cons (by simp) _)
    rw [List.append_assoc, List.cons_append]
    exact fields?_brace k hread (skip_cons (by decide) _)
  | (k, v) :: f :: fs =>
    have hv := length_render_pos v
    rw [renderFields_cons_cons] at hf ⊢
    simp only [List.length_append, List.length_cons] at hf
    have hread (cs : List Char) : value? fuel (render v ++ ',' :: cs) = some (v, ',' :: cs) :=
      value?_render v (by omega) (endsNumeral_cons (by simp) _)
    rw [List.append_assoc, List.cons_append, List.append_assoc, List.cons_append,
      fields?_comma k (hread _) (skip_cons (by decide) _),
      fields?_render (f :: fs) (List.cons_ne_nil _ _) (by omega)]
    rfl

end

/-- A text that is written for a value is read as that value. -/
theorem parse?_compact (j : Json) : parse? j.compact = some j := by
  have hread : value? ((render j).length + 1) (render j ++ []) = some (j, []) :=
    value?_render j (Nat.le_succ _) (by rintro _ ⟨⟩)
  rw [List.append_nil] at hread
  rw [parse?, compact, String.toList_ofList, ofChars?, hread]
  rfl

/-! ## Objects with one field on each line -/

theorem skip_append {bs : List Char} (h : bs.all isSpace = true) (cs : List Char) :
    skip (bs ++ cs) = skip cs :=
  List.dropWhile_append_of_pos (List.all_eq_true.mp h)

theorem expect?_append {bs : List Char} (h : bs.all isSpace = true) (c : Char) (cs : List Char) :
    expect? c (bs ++ cs) = expect? c cs := by rw [expect?, expect?, skip_append h]

theorem value?_append {bs : List Char} (h : bs.all isSpace = true) (fuel : Nat) (cs : List Char) :
    value? fuel (bs ++ cs) = value? fuel cs := by
  cases fuel with
  | zero => rw [value?, value?]
  | succ fuel => rw [value?, value?, skip_append h]

theorem fields?_append {bs : List Char} (h : bs.all isSpace = true) (fuel : Nat) (cs : List Char) :
    fields? fuel (bs ++ cs) = fields? fuel cs := by
  cases fuel with
  | zero => rw [fields?, fields?]
  | succ fuel => rw [fields?, fields?, expect?_append h]

theorem endsNumeral_newline (cs : List Char) : EndsNumeral ('\n' :: cs) := by
  rintro _ ⟨⟩
  decide

theorem renderLines_cons_cons (k : String) (v : Json) (f : String × Json)
    (fs : List (String × Json)) : renderLines ((k, v) :: f :: fs) =
      [' ', ' '] ++ quote k ++ [':', ' '] ++ render v ++ [',', '\n'] ++ renderLines (f :: fs) := by
  rw [renderLines]
  exact List.cons_ne_nil _ _

theorem renderLines_eq_append (f : String × Json) (fs : List (String × Json)) :
    ∃ cs, renderLines (f :: fs) = [' ', ' '] ++ '"' :: cs := by
  obtain ⟨k, v⟩ := f
  cases fs with
  | nil => exact ⟨_, by rw [renderLines, quote]; rfl⟩
  | cons f fs => exact ⟨_, by rw [renderLines_cons_cons, quote]; rfl⟩

theorem fields?_renderLines (fs : List (String × Json)) (hne : fs ≠ []) {fuel : Nat}
    {rest : List Char} (hf : (renderLines fs).length < fuel) :
    fields? fuel (renderLines fs ++ '}' :: rest) =
      some (fs.map fun f => (some f.1, f.2), rest) := by
  induction fs generalizing fuel with
  | nil => exact absurd rfl hne
  | cons f fs ih =>
    obtain ⟨k, v⟩ := f
    obtain ⟨fuel, rfl⟩ : ∃ n, fuel = n + 1 := Nat.exists_eq_add_one.mpr (Nat.zero_lt_of_lt hf)
    cases fs with
    | nil =>
      rw [renderLines] at hf ⊢
      simp only [List.length_append, List.length_cons] at hf
      have hread : value? fuel ([' '] ++ (render v ++ '\n' :: '}' :: rest)) =
          some (v, '\n' :: '}' :: rest) := by
        rw [value?_append (by decide), value?_render v (by omega) (endsNumeral_newline _)]
      have hline : [' ', ' '] ++ quote k ++ [':', ' '] ++ render v ++ ['\n'] ++ '}' :: rest =
          [' ', ' '] ++ (quoteText (some k) ++ ':' ::
            ([' '] ++ (render v ++ '\n' :: '}' :: rest))) := by
        simp [quoteText]
      rw [hline, fields?_append (by decide)]
      exact fields?_brace _ hread rfl
    | cons g fs =>
      have hv := length_render_pos v
      rw [renderLines_cons_cons] at hf ⊢
      simp only [List.length_append, List.length_cons] at hf
      have hread (cs : List Char) : value? fuel ([' '] ++ (render v ++ ',' :: cs)) =
          some (v, ',' :: cs) := by
        rw [value?_append (by decide), value?_render v (by omega) (endsNumeral_cons (by simp) _)]
      have hline : [' ', ' '] ++ quote k ++ [':', ' '] ++ render v ++ [',', '\n'] ++
          renderLines (g :: fs) ++ '}' :: rest =
            [' ', ' '] ++ (quoteText (some k) ++ ':' :: ([' '] ++ (render v ++ ',' ::
              (['\n'] ++ (renderLines (g :: fs) ++ '}' :: rest))))) := by
        simp [quoteText]
      rw [hline, fields?_append (by decide), fields?_comma _ (hread _) (skip_cons (by decide) _),
        fields?_append (by decide), ih (List.cons_ne_nil _ _) (by omega)]
      rfl

/-- An object with one field on each line is read back. -/
theorem parse?_layout (fs : List (String × Json)) : parse? (layout fs) = some (mk fs) := by
  rw [parse?, layout, String.toList_ofList, ofChars?]
  cases fs with
  | nil => rfl
  | cons f fs =>
    obtain ⟨cs, heq⟩ := renderLines_eq_append f fs
    have hnone : expect? '}' (['\n'] ++ (renderLines (f :: fs) ++ ['}'])) = none := by
      rw [expect?_append (by decide), heq, List.append_assoc, expect?_append (by decide)]
      exact expect?_of_ne (by decide) (by decide) _
    have hfuel : (renderLines (f :: fs)).length <
        (['{', '\n'] ++ renderLines (f :: fs) ++ ['}']).length := by
      simp only [List.length_append, List.length_cons]
      omega
    have hread : fields? (['{', '\n'] ++ renderLines (f :: fs) ++ ['}']).length
        (['\n'] ++ (renderLines (f :: fs) ++ ['}'])) =
          some ((f :: fs).map fun f => (some f.1, f.2), []) := by
      rw [fields?_append (by decide)]
      exact fields?_renderLines (f :: fs) (List.cons_ne_nil _ _) hfuel
    have hskip : skip (['{', '\n'] ++ renderLines (f :: fs) ++ ['}']) =
        '{' :: (['\n'] ++ (renderLines (f :: fs) ++ ['}'])) := skip_cons (by decide) _
    rw [value?, hskip]
    simp only [hnone, hread, Option.map_some]
    rfl

end MeshNode.Json
