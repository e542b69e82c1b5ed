import Mathlib.Data.List.Basic
import MeshNode.Params

/-! # How parameters are spelt

The parameters of a request are its value, its transaction number and, in the long form, a known
transition time and a delay, and nothing else is read. What breaks this grammar is refused for the
length alone, or for all that is wrong with the value and the transition time.
-/

namespace MeshNode

namespace Decoder

variable {α : Type}

/-! ## Decoders and their bytes -/

/-- Writing a value gives back the bytes that it was read from. -/
def UndoneBy (width : Nat) (decode : Decoder α) (encode : α → List UInt8) : Prop :=
  ∀ bs v, bs.length = width → decode bs = .ok v → encode v = bs

/-- Looking the bytes up at their places finds all of them and reads the same. -/
def LooksLike (width : Nat) (decode : Decoder α)
    (look : List UInt8 → Option (Except Prohibited α)) : Prop :=
  ∀ bs, bs.length = width → look bs = some (decode bs)

def onOff? (bs : List UInt8) : Option (Except Prohibited OnOff) := bs[0]?.map OnOff.ofRaw

def level? (bs : List UInt8) : Option (Except Prohibited Level) := do
  return level [← bs[0]?, ← bs[1]?]

def lightness? (bs : List UInt8) : Option (Except Prohibited Lightness) := do
  return lightness [← bs[0]?, ← bs[1]?]

def delta? (bs : List UInt8) : Option (Except Prohibited Int32) := do
  return delta [← bs[0]?, ← bs[1]?, ← bs[2]?, ← bs[3]?]

theorem onOff_looksLike : onOff.LooksLike 1 onOff? := by
  intro bs hlen
  obtain ⟨b, rfl⟩ := List.length_eq_one_iff.mp hlen
  rfl

theorem level_looksLike : level.LooksLike 2 level? := by
  intro bs hlen
  obtain ⟨a, b, rfl⟩ := List.length_eq_two.mp hlen
  rfl

theorem lightness_looksLike : lightness.LooksLike 2 lightness? := by
  intro bs hlen
  obtain ⟨a, b, rfl⟩ := List.length_eq_two.mp hlen
  rfl

theorem delta_looksLike : delta.LooksLike 4 delta? := by
  intro bs hlen
  obtain ⟨a, b, c, d, rfl⟩ := List.length_eq_four.mp hlen
  rfl

theorem onOff_undoneBy : onOff.UndoneBy 1 fun s => (Value.onOff s).encode := by
  intro bs s hlen hs
  obtain ⟨b, rfl⟩ := List.length_eq_one_iff.mp hlen
  change OnOff.ofRaw b = .ok s at hs
  unfold OnOff.ofRaw at hs
  split at hs
  next hb =>
    obtain rfl := Except.ok.inj hs
    rw [hb]
    rfl
  next =>
    split at hs
    next hb =>
      obtain rfl := Except.ok.inj hs
      rw [hb]
      rfl
    next => cases hs

theorem toBytes_word16 {bs : List UInt8} (hlen : bs.length = 2) :
    Binary.toBytes 2 (UInt16.ofNat (Binary.ofBytes bs)).toNat = bs := by
  have hlt := Binary.ofBytes_lt bs
  rw [hlen] at hlt
  rw [UInt16.toNat_ofNat_of_lt' hlt, ← hlen]
  exact Binary.toBytes_ofBytes bs

theorem level_undoneBy : level.UndoneBy 2 fun l => (Value.level l).encode := by
  rintro bs _ hlen ⟨⟩
  change Binary.toBytes 2 (UInt16.ofNat (Binary.ofBytes bs)).toInt16.toUInt16.toNat = bs
  rw [UInt16.toUInt16_toInt16]
  exact toBytes_word16 hlen

theorem lightness_undoneBy : lightness.UndoneBy 2 fun l => (Value.lightness l).encode := by
  rintro bs _ hlen ⟨⟩
  exact toBytes_word16 hlen

theorem delta_undoneBy : delta.UndoneBy 4 fun d => Binary.toBytes 4 d.toUInt32.toNat := by
  rintro bs _ hlen ⟨⟩
  have hlt := Binary.ofBytes_lt bs
  rw [hlen] at hlt
  change Binary.toBytes 4 (UInt32.ofNat (Binary.ofBytes bs)).toInt32.toUInt32.toNat = bs
  rw [UInt32.toUInt32_toInt32, UInt32.toNat_ofNat_of_lt' hlt, ← hlen]
  exact Binary.toBytes_ofBytes bs

end Decoder

namespace Params

variable {α : Type} {width : Nat} {decode : Decoder α} {bs bytes : List UInt8} {p : Params α}
  {vs : List Violation} {tid raw delay : UInt8}

/-! ## The grammar -/

/-- The bytes spell parameters whose value takes `width` bytes: in short, or with a timing. -/
inductive Spells (width : Nat) (decode : Decoder α) : List UInt8 → Params α → Prop where
  | short {bs : List UInt8} {v : α} (tid : UInt8) (hlen : bs.length = width)
    (hv : decode bs = .ok v) : Spells width decode (bs ++ [tid]) ⟨v, tid, none⟩
  | long {bs : List UInt8} {v : α} (tid raw delay : UInt8) (hlen : bs.length = width)
    (hv : decode bs = .ok v) (hraw : raw &&& 0x3F ≠ 0x3F) :
    Spells width decode (bs ++ [tid, raw, delay]) ⟨v, tid, some ⟨⟨raw⟩, delay⟩⟩

/-- The bytes spell no parameters, with everything that is wrong with them. -/
inductive Breaks (width : Nat) (decode : Decoder α) : List UInt8 → List Violation → Prop where
  | length {bytes : List UInt8} (hshort : bytes.length ≠ width + 1)
    (hlong : bytes.length ≠ width + 3) :
    Breaks width decode bytes [.length [width + 1, width + 3] bytes.length]
  | short {bs : List UInt8} {cause : Prohibited} (tid : UInt8) (hlen : bs.length = width)
    (hv : decode bs = .error cause) : Breaks width decode (bs ++ [tid]) [.prohibited cause]
  | value {bs : List UInt8} {cause : Prohibited} (tid raw delay : UInt8) (hlen : bs.length = width)
    (hv : decode bs = .error cause) (hraw : raw &&& 0x3F ≠ 0x3F) :
    Breaks width decode (bs ++ [tid, raw, delay]) [.prohibited cause]
  | transition {bs : List UInt8} {v : α} (tid raw delay : UInt8) (hlen : bs.length = width)
    (hv : decode bs = .ok v) (hraw : raw &&& 0x3F = 0x3F) :
    Breaks width decode (bs ++ [tid, raw, delay]) [.reservedTransitionTime raw]
  | both {bs : List UInt8} {cause : Prohibited} (tid raw delay : UInt8) (hlen : bs.length = width)
    (hv : decode bs = .error cause) (hraw : raw &&& 0x3F = 0x3F) :
    Breaks width decode (bs ++ [tid, raw, delay]) [.prohibited cause, .reservedTransitionTime raw]

def toBytes (encode : α → List UInt8) (p : Params α) : List UInt8 :=
  encode p.value ++ p.tid ::
    match p.timing with
    | some t => [t.transition.raw, t.delay]
    | none => []

/-! ## Reading form by form -/

def gather (value : Except Violation α) (tid : UInt8) (timing : Except Violation (Option Timing)) :
    Except (List Violation) (Params α) :=
  match value, timing with
  | .ok value, .ok timing => .ok ⟨value, tid, timing⟩
  | .error v, .ok _ => .error [v]
  | .ok _, .error v => .error [v]
  | .error v, .error w => .error [v, w]

theorem transactional_eq (width : Nat) (decode : Decoder α) (bytes : List UInt8) :
    transactional width decode bytes =
      if bytes.length ∈ [width + 1, width + 3] then
        gather ((decode (bytes.take width)).mapError .prohibited) (bytes.getD width 0)
          (checkTiming (bytes.drop (width + 1)))
      else .error [.length [width + 1, width + 3] bytes.length] := rfl

theorem form_cases (width : Nat) (bytes : List UInt8) :
    (∃ bs tid, bs.length = width ∧ bytes = bs ++ [tid]) ∨
      (∃ bs tid raw delay, bs.length = width ∧ bytes = bs ++ [tid, raw, delay]) ∨
      bytes.length ≠ width + 1 ∧ bytes.length ≠ width + 3 := by
  have hsplit : bytes = bytes.take width ++ bytes.drop width := (List.take_append_drop ..).symm
  by_cases hshort : bytes.length = width + 1
  · have hlen : (bytes.drop width).length = 1 := by rw [List.length_drop]; omega
    obtain ⟨tid, heq⟩ := List.length_eq_one_iff.mp hlen
    rw [heq] at hsplit
    exact .inl ⟨_, tid, by rw [List.length_take]; omega, hsplit⟩
  · by_cases hlong : bytes.length = width + 3
    · have hlen : (bytes.drop width).length = 3 := by rw [List.length_drop]; omega
      obtain ⟨tid, raw, delay, heq⟩ := List.length_eq_three.mp hlen
      rw [heq] at hsplit
      exact .inr (.inl ⟨_, tid, raw, delay, by rw [List.length_take]; omega, hsplit⟩)
    · exact .inr (.inr ⟨hshort, hlong⟩)

theorem transactional_short (hlen : bs.length = width) :
    transactional width decode (bs ++ [tid]) =
      gather ((decode bs).mapError .prohibited) tid (.ok none) := by
  subst hlen
  have hmem : (bs ++ [tid]).length ∈ [bs.length + 1, bs.length + 3] := by simp
  have hrest : (bs ++ [tid]).drop (bs.length + 1) = [] := by
    rw [← List.drop_drop, List.drop_left]
    rfl
  rw [transactional_eq, if_pos hmem, List.take_left, hrest]
  simp [checkTiming]

theorem transactional_long (hlen : bs.length = width) :
    transactional width decode (bs ++ [tid, raw, delay]) =
      gather ((decode bs).mapError .prohibited) tid
        ((checkTransition raw).map fun t => some ⟨t, delay⟩) := by
  subst hlen
  have hmem : (bs ++ [tid, raw, delay]).length ∈ [bs.length + 1, bs.length + 3] := by simp
  have hrest : (bs ++ [tid, raw, delay]).drop (bs.length + 1) = [raw, delay] := by
    rw [← List.drop_drop, List.drop_left]
    rfl
  rw [transactional_eq, if_pos hmem, List.take_left, hrest]
  simp [checkTiming]

theorem transactional_of_length (hshort : bytes.length ≠ width + 1)
    (hlong : bytes.length ≠ width + 3) : transactional width decode bytes =
      .error [.length [width + 1, width + 3] bytes.length] := by
  rw [transactional_eq, if_neg (by simp [hshort, hlong])]

theorem steps_eq_and (raw : UInt8) : (TransitionTime.mk raw).steps = (raw &&& 0x3F).toNat := by
  rw [UInt8.toNat_and]
  exact (Nat.and_two_pow_sub_one_eq_mod raw.toNat 6).symm

theorem steps_eq_zero_iff (t : TransitionTime) : t.steps = 0 ↔ t.raw &&& 0x3F = 0 := by
  rw [steps_eq_and, ← UInt8.toNat_inj]
  rfl

theorem isUnknown_iff : (TransitionTime.mk raw).isUnknown = true ↔ raw &&& 0x3F = 0x3F := by
  rw [TransitionTime.isUnknown, decide_eq_true_eq, steps_eq_and, ← UInt8.toNat_inj]
  rfl

theorem checkTransition_known (hraw : raw &&& 0x3F ≠ 0x3F) :
    checkTransition raw = .ok ⟨raw⟩ := if_neg fun h => hraw (isUnknown_iff.mp h)

theorem checkTransition_reserved (hraw : raw &&& 0x3F = 0x3F) :
    checkTransition raw = .error (.reservedTransitionTime raw) := if_pos (isUnknown_iff.mpr hraw)

/-! ## What is accepted and what is refused -/

theorem Spells.transactional_eq_ok (h : Spells width decode bytes p) :
    transactional width decode bytes = .ok p := by
  cases h with
  | short tid hlen hv =>
    rw [transactional_short hlen, hv]
    rfl
  | long tid raw delay hlen hv hraw =>
    rw [transactional_long hlen, hv, checkTransition_known hraw]
    rfl

theorem Breaks.transactional_eq_error (h : Breaks width decode bytes vs) :
    transactional width decode bytes = .error vs := by
  cases h with
  | length hshort hlong => exact transactional_of_length hshort hlong
  | short tid hlen hv =>
    rw [transactional_short hlen, hv]
    rfl
  | value tid raw delay hlen hv hraw =>
    rw [transactional_long hlen, hv, checkTransition_known hraw]
    rfl
  | transition tid raw delay hlen hv hraw =>
    rw [transactional_long hlen, hv, checkTransition_reserved hraw]
    rfl
  | both tid raw delay hlen hv hraw =>
    rw [transactional_long hlen, hv, checkTransition_reserved hraw]
    rfl

theorem spells_or_breaks (width : Nat) (decode : Decoder α) (bytes : List UInt8) :
    (∃ p, Spells width decode bytes p) ∨ ∃ vs, Breaks width decode bytes vs := by
  rcases form_cases width bytes with ⟨bs, tid, hlen, rfl⟩ | ⟨bs, tid, raw, delay, hlen, rfl⟩ | h
  · cases hv : decode bs with
    | ok v => exact .inl ⟨_, .short tid hlen hv⟩
    | error cause => exact .inr ⟨_, .short tid hlen hv⟩
  · by_cases hraw : raw &&& 0x3F = 0x3F
    · cases hv : decode bs with
      | ok v => exact .inr ⟨_, .transition tid raw delay hlen hv hraw⟩
      | error cause => exact .inr ⟨_, .both tid raw delay hlen hv hraw⟩
    · cases hv : decode bs with
      | ok v => exact .inl ⟨_, .long tid raw delay hlen hv hraw⟩
      | error cause => exact .inr ⟨_, .value tid raw delay hlen hv hraw⟩
  · exact .inr ⟨_, .length h.1 h.2⟩

theorem transactional_eq_ok_iff :
    transactional width decode bytes = .ok p ↔ Spells width decode bytes p := by
  refine ⟨fun h => ?_, Spells.transactional_eq_ok⟩
  rcases spells_or_breaks width decode bytes with ⟨q, hq⟩ | ⟨vs, hvs⟩
  · obtain rfl := Except.ok.inj (hq.transactional_eq_ok.symm.trans h)
    exact hq
  · cases hvs.transactional_eq_error.symm.trans h

theorem transactional_eq_error_iff :
    transactional width decode bytes = .error vs ↔ Breaks width decode bytes vs := by
  refine ⟨fun h => ?_, Breaks.transactional_eq_error⟩
  rcases spells_or_breaks width decode bytes with ⟨q, hq⟩ | ⟨ws, hws⟩
  · cases hq.transactional_eq_ok.symm.trans h
  · obtain rfl := Except.error.inj (hws.transactional_eq_error.symm.trans h)
    exact hws

/-- A value that is written as it was read brings the parameters back to their bytes. -/
theorem Spells.toBytes_eq {encode : α → List UInt8} (h : Spells width decode bytes p)
    (hencode : decode.UndoneBy width encode) : p.toBytes encode = bytes := by
  cases h with
  | short tid hlen hv => rw [toBytes, hencode _ _ hlen hv]
  | long tid raw delay hlen hv hraw => rw [toBytes, hencode _ _ hlen hv]

/-! ## Moves -/

/-- The parameters ask for a transition of no steps. -/
def TakesNoTime (p : Params α) : Prop :=
  ∃ t, p.timing = some t ∧ t.transition.raw &&& 0x3F = 0

theorem movement_of_error (h : transactional 2 Decoder.level bytes = .error vs) :
    movement bytes = .error vs := by rw [movement, h]

theorem movement_of_takesNoTime {p : Params Level} (h : transactional 2 Decoder.level bytes = .ok p)
    (hzero : p.TakesNoTime) : movement bytes = .error [.zeroMoveTransition] := by
  obtain ⟨t, ht, hsteps⟩ := hzero
  rw [movement, h]
  dsimp only
  rw [ht]
  exact if_pos ((steps_eq_zero_iff _).mpr hsteps)

theorem movement_of_not_takesNoTime {p : Params Level}
    (h : transactional 2 Decoder.level bytes = .ok p) (hzero : ¬ p.TakesNoTime) :
    movement bytes = .ok p := by
  rw [movement, h]
  dsimp only
  cases ht : p.timing with
  | none => rfl
  | some t => exact if_neg fun hsteps => hzero ⟨t, ht, (steps_eq_zero_iff _).mp hsteps⟩

theorem movement_eq_ok_iff {p : Params Level} :
    movement bytes = .ok p ↔ Spells 2 .level bytes p ∧ ¬ p.TakesNoTime := by
  rw [← transactional_eq_ok_iff]
  constructor
  · intro h
    cases hread : transactional 2 Decoder.level bytes with
    | error vs => cases (movement_of_error hread).symm.trans h
    | ok q =>
      by_cases hzero : q.TakesNoTime
      · cases (movement_of_takesNoTime hread hzero).symm.trans h
      · obtain rfl := Except.ok.inj ((movement_of_not_takesNoTime hread hzero).symm.trans h)
        exact ⟨rfl, hzero⟩
  · rintro ⟨hread, hzero⟩
    exact movement_of_not_takesNoTime hread hzero

theorem movement_eq_error_iff : movement bytes = .error vs ↔
    Breaks 2 .level bytes vs ∨
      vs = [.zeroMoveTransition] ∧ ∃ p, Spells 2 .level bytes p ∧ p.TakesNoTime := by
  rw [← transactional_eq_error_iff]
  constructor
  · intro h
    cases hread : transactional 2 Decoder.level bytes with
    | error ws =>
      obtain rfl := Except.error.inj ((movement_of_error hread).symm.trans h)
      exact .inl rfl
    | ok q =>
      by_cases hzero : q.TakesNoTime
      · obtain rfl := Except.error.inj ((movement_of_takesNoTime hread hzero).symm.trans h)
        exact .inr ⟨rfl, q, transactional_eq_ok_iff.mp hread, hzero⟩
      · cases (movement_of_not_takesNoTime hread hzero).symm.trans h
  · rintro (hread | ⟨rfl, p, hp, hzero⟩)
    · exact movement_of_error hread
    · exact movement_of_takesNoTime hp.transactional_eq_ok hzero

/-! ## No byte is missed -/

def slice? (n : Nat) (bytes : List UInt8) : Option (List UInt8) :=
  if n ≤ bytes.length then some (bytes.take n) else none

/-- Reading as `transactional` does, where a byte that is looked for behind the end is a failure. -/
def transactional? (width : Nat) (look : List UInt8 → Option (Except Prohibited α))
    (bytes : List UInt8) : Option (Except (List Violation) (Params α)) :=
  let expected := [width + 1, width + 3]
  if bytes.length ∈ expected then do
    let value ← look (← slice? width bytes)
    let tid ← bytes[width]?
    return gather (value.mapError .prohibited) tid (checkTiming (bytes.drop (width + 1)))
  else some (.error [.length expected bytes.length])

def movement? (bytes : List UInt8) : Option (Except (List Violation) (Params Level)) := do
  match ← transactional? 2 Decoder.level? bytes with
  | .error vs => return .error vs
  | .ok p =>
    match p.timing with
    | some t => return if t.transition.steps = 0 then .error [.zeroMoveTransition] else .ok p
    | none => return .ok p

theorem transactional?_eq {look : List UInt8 → Option (Except Prohibited α)}
    (hlook : decode.LooksLike width look) :
    transactional? width look bytes = some (transactional width decode bytes) := by
  rw [transactional_eq, transactional?]
  by_cases hmem : bytes.length ∈ [width + 1, width + 3]
  · have hlt : width < bytes.length := by
      simp only [List.mem_cons, List.not_mem_nil, or_false] at hmem
      omega
    have hle : width ≤ bytes.length := Nat.le_of_lt hlt
    have hslice : slice? width bytes = some (bytes.take width) := if_pos hle
    have hvalue : look (bytes.take width) = some (decode (bytes.take width)) :=
      hlook _ (List.length_take_of_le hle)
    have htid : bytes[width]? = some (bytes.getD width 0) := by
      rw [List.getD_eq_getElem?_getD, List.getElem?_eq_getElem hlt]
      rfl
    rw [if_pos hmem, if_pos hmem, hslice, Option.bind_eq_bind, Option.bind_some, hvalue, htid]
    rfl
  · rw [if_neg hmem, if_neg hmem]

theorem movement?_eq (bytes : List UInt8) : movement? bytes = some (movement bytes) := by
  rw [movement?, transactional?_eq Decoder.level_looksLike, movement]
  cases transactional 2 Decoder.level bytes with
  | error vs => rfl
  | ok p =>
    cases ht : p.timing with
    | none => simp [ht]
    | some t =>
      simp only [Option.bind_eq_bind, Option.bind_some, ht]
      split <;> rfl

/-- Parameters are accepted exactly if the grammar spells them, and refused exactly for all that
breaks it. Written again they give the bytes that they were read from, and reading looks for no byte
that is not there. A move is read in the same way, except that it must not be asked to take no
time. -/
theorem accepts_exactly_spelt (width : Nat) (decode : Decoder α) (bytes : List UInt8) :
    (∀ p, transactional width decode bytes = .ok p ↔ Spells width decode bytes p) ∧
    (∀ vs, transactional width decode bytes = .error vs ↔ Breaks width decode bytes vs) ∧
    (∀ encode, decode.UndoneBy width encode →
      ∀ p, transactional width decode bytes = .ok p → p.toBytes encode = bytes) ∧
    (∀ look, decode.LooksLike width look →
      transactional? width look bytes = some (transactional width decode bytes)) ∧
    (∀ p, movement bytes = .ok p ↔ Spells 2 .level bytes p ∧ ¬ p.TakesNoTime) ∧
    (∀ vs, movement bytes = .error vs ↔ Breaks 2 .level bytes vs ∨
      vs = [.zeroMoveTransition] ∧ ∃ p, Spells 2 .level bytes p ∧ p.TakesNoTime) ∧
    (∀ p, movement bytes = .ok p → p.toBytes (fun l => (Value.level l).encode) = bytes) ∧
    movement? bytes = some (movement bytes) := by
  refine ⟨fun p => transactional_eq_ok_iff, fun vs => transactional_eq_error_iff, ?_, ?_,
    fun p => movement_eq_ok_iff, fun vs => movement_eq_error_iff, ?_, movement?_eq bytes⟩
  · intro encode hencode p hp
    exact (transactional_eq_ok_iff.mp hp).toBytes_eq hencode
  · intro look hlook
    exact transactional?_eq hlook
  · intro p hp
    exact (movement_eq_ok_iff.mp hp).1.toBytes_eq Decoder.level_undoneBy

/-- A switch is asked in the long form, a lamp in the short one, and a level to go down by three. -/
theorem accepts_exactly_spelt_models :
    Decoder.onOff.UndoneBy 1 (fun s => (Value.onOff s).encode) ∧
      Decoder.onOff.LooksLike 1 Decoder.onOff? ∧
      transactional 1 .onOff [1, 5, 69, 10] = .ok ⟨.on, 5, some ⟨⟨69⟩, 10⟩⟩ ∧
      (⟨.on, 5, some ⟨⟨69⟩, 10⟩⟩ : Params OnOff).toBytes (fun s => (Value.onOff s).encode) =
        [1, 5, 69, 10] ∧
      transactional? 1 Decoder.onOff? [1, 5, 69, 10] =
        some (transactional 1 .onOff [1, 5, 69, 10]) ∧
      Decoder.lightness.UndoneBy 2 (fun l => (Value.lightness l).encode) ∧
      Decoder.lightness.LooksLike 2 Decoder.lightness? ∧
      transactional 2 .lightness [16, 39, 9] = .ok ⟨10000, 9, none⟩ ∧
      (⟨10000, 9, none⟩ : Params Lightness).toBytes (fun l => (Value.lightness l).encode) =
        [16, 39, 9] ∧
      transactional? 2 Decoder.lightness? [16, 39, 9] =
        some (transactional 2 .lightness [16, 39, 9]) ∧
      Decoder.delta.UndoneBy 4 (fun d => Binary.toBytes 4 d.toUInt32.toNat) ∧
      Decoder.delta.LooksLike 4 Decoder.delta? ∧
      transactional 4 .delta [253, 255, 255, 255, 9] = .ok ⟨-3, 9, none⟩ ∧
      (⟨-3, 9, none⟩ : Params Int32).toBytes (fun d => Binary.toBytes 4 d.toUInt32.toNat) =
        [253, 255, 255, 255, 9] ∧
      transactional? 4 Decoder.delta? [253, 255, 255, 255, 9] =
        some (transactional 4 .delta [253, 255, 255, 255, 9]) := by
  have honOff : transactional 1 .onOff [1, 5, 69, 10] = .ok ⟨.on, 5, some ⟨⟨69⟩, 10⟩⟩ := by
    decide
  have hlight : transactional 2 .lightness [16, 39, 9] = .ok ⟨10000, 9, none⟩ := by decide
  have hdelta : transactional 4 .delta [253, 255, 255, 255, 9] = .ok ⟨-3, 9, none⟩ := by decide
  obtain ⟨-, -, hwrite, hlook, -⟩ := accepts_exactly_spelt 1 .onOff [1, 5, 69, 10]
  obtain ⟨-, -, hwrite', hlook', -⟩ := accepts_exactly_spelt 2 .lightness [16, 39, 9]
  obtain ⟨-, -, hwrite'', hlook'', -⟩ := accepts_exactly_spelt 4 .delta [253, 255, 255, 255, 9]
  exact ⟨Decoder.onOff_undoneBy, Decoder.onOff_looksLike, honOff,
    hwrite _ Decoder.onOff_undoneBy _ honOff, hlook _ Decoder.onOff_looksLike,
    Decoder.lightness_undoneBy, Decoder.lightness_looksLike, hlight,
    hwrite' _ Decoder.lightness_undoneBy _ hlight, hlook' _ Decoder.lightness_looksLike,
    Decoder.delta_undoneBy, Decoder.delta_looksLike, hdelta,
    hwrite'' _ Decoder.delta_undoneBy _ hdelta, hlook'' _ Decoder.delta_looksLike⟩

end Params

end MeshNode
