import MeshNode.Proofs.Codec.SnapshotRoundTrip

/-! # Torn bytes are refused

A reader decides by the bytes that it takes and never by those behind them. So what it reads from
the front of some bytes it reads from all of them, and bytes that are cut short are not read at all:
a snapshot torn anywhere cannot be decoded, and bytes behind a whole one are left alone.
-/

namespace MeshNode

namespace Binary.Reader

variable {α β : Type} {a : α} {bs p : List UInt8} {r : Reader α}

/-- What the reader finds at the front does not depend on what follows. -/
def IsLocal (r : Reader α) : Prop :=
  ∀ bs a rest, r bs = some (a, rest) → ∀ more, r (bs ++ more) = some (a, rest ++ more)

theorem isLocal_pure (a : α) : (pure a).IsLocal := by
  rintro bs _ _ ⟨⟩ more
  rfl

theorem IsLocal.bind {f : α → Reader β} (h : r.IsLocal) (hf : ∀ a, (f a).IsLocal) :
    IsLocal (r >>= f) := by
  intro bs b rest hread more
  change r.andThen f bs = some (b, rest) at hread
  change r.andThen f (bs ++ more) = some (b, rest ++ more)
  unfold andThen at hread ⊢
  cases hr : r bs with
  | none =>
    rw [hr] at hread
    cases hread
  | some found =>
    obtain ⟨a, left⟩ := found
    rw [hr] at hread
    rw [h bs a left hr more]
    exact hf a left b rest hread more

theorem isLocal_ofOption (a? : Option α) : (ofOption a?).IsLocal := by
  intro bs b rest hread more
  obtain ⟨a, rfl, heq⟩ := Option.map_eq_some_iff.mp hread
  obtain ⟨rfl, rfl⟩ := Prod.mk.injEq .. ▸ heq
  rfl

theorem isLocal_take (n : Nat) : (take n).IsLocal := by
  intro bs taken rest hread more
  unfold take at hread ⊢
  split at hread
  next hlen =>
    obtain ⟨rfl, rfl⟩ := Prod.mk.injEq .. ▸ Option.some.inj hread
    have hlen' : n ≤ (bs ++ more).length := by
      rw [List.length_append]
      exact Nat.le_add_right_of_le hlen
    rw [if_pos hlen', List.take_append_of_le_length hlen, List.drop_append_of_le_length hlen]
  next => cases hread

theorem isLocal_word (width : Nat) : (word width).IsLocal :=
  (isLocal_take width).bind fun _ => isLocal_pure _

theorem isLocal_count (h : r.IsLocal) (n : Nat) : (count r n).IsLocal := by
  induction n with
  | zero => exact isLocal_pure []
  | succ n ih => exact h.bind fun _ => ih.bind fun _ => isLocal_pure _

theorem isLocal_list (h : r.IsLocal) : (list r).IsLocal :=
  (isLocal_word 8).bind fun n => isLocal_count h n

theorem isLocal_option (h : r.IsLocal) : (option r).IsLocal := by
  refine (isLocal_word 1).bind fun tag => ?_
  split
  · exact isLocal_pure none
  · split
    · exact h.bind fun _ => isLocal_pure _
    · exact isLocal_ofOption none

theorem isLocal_text : text.IsLocal :=
  (isLocal_word 8).bind fun n => (isLocal_take n).bind fun _ => isLocal_ofOption _

theorem isLocal_choice (all : List α) : (choice all).IsLocal :=
  (isLocal_word 4).bind fun _ => isLocal_ofOption _

/-- A reader that takes all of some bytes takes nothing from a part of them that is cut short. -/
theorem Reads.torn (hr : r.Reads bs a) (hl : r.IsLocal) (hp : p <+: bs) (hne : p ≠ bs) :
    r p = none := by
  obtain ⟨cut, rfl⟩ := hp
  cases hread : r p with
  | none => rfl
  | some found =>
    -- With the bytes that were cut off it would leave these, but it leaves nothing.
    obtain ⟨b, rest⟩ := found
    have hmore := hl p b rest hread cut
    have hall := hr []
    rw [List.append_nil, hmore] at hall
    obtain ⟨-, hrest⟩ := Prod.mk.injEq .. ▸ Option.some.inj hall
    obtain ⟨-, rfl⟩ := List.append_eq_nil_iff.mp hrest
    exact absurd (List.append_nil p).symm hne

end Binary.Reader

open Binary Binary.Reader

/-! ## The parts of a snapshot -/

theorem Value.isLocal_read : Value.read.IsLocal := by
  refine (isLocal_word 4).bind fun kind => ?_
  split
  · exact (isLocal_choice onOffs).bind fun _ => isLocal_pure _
  · exact (isLocal_word 2).bind fun _ => isLocal_pure _
  · exact (isLocal_choice onPowerUps).bind fun _ => isLocal_pure _
  · exact (isLocal_word 1).bind fun _ => isLocal_pure _
  · exact (isLocal_word 2).bind fun _ => isLocal_pure _
  · exact isLocal_ofOption none

theorem LightMemory.isLocal_read : LightMemory.read.IsLocal :=
  (isLocal_word 2).bind fun _ => (isLocal_word 2).bind fun _ => (isLocal_word 2).bind fun _ =>
    (isLocal_word 2).bind fun _ => isLocal_pure _

theorem Change.isLocal_read : Change.read.IsLocal :=
  Value.isLocal_read.bind fun _ => Value.isLocal_read.bind fun _ => (isLocal_word 8).bind fun _ =>
    (isLocal_choice Source.all).bind fun _ => isLocal_pure _

theorem History.isLocal_read : History.read.IsLocal :=
  (isLocal_list Change.isLocal_read).bind fun _ => (isLocal_word 8).bind fun _ => isLocal_pure _

theorem Image.isLocal_read : Image.read.IsLocal := by
  refine (isLocal_word 1).bind fun _ => (isLocal_choice Model.all).bind fun _ => ?_
  refine Value.isLocal_read.bind fun _ => Value.isLocal_read.bind fun _ => ?_
  refine (isLocal_list (isLocal_option Value.isLocal_read)).bind fun _ => ?_
  exact LightMemory.isLocal_read.bind fun _ => History.isLocal_read.bind fun _ => isLocal_pure _

namespace Snapshot

theorem isLocal_read : read.IsLocal := by
  refine (isLocal_word 4).bind fun _ => isLocal_text.bind fun _ => isLocal_text.bind fun _ => ?_
  exact (isLocal_ofOption _).bind fun _ => Image.isLocal_read.bind fun _ => isLocal_pure _

/-! ## Whole and torn snapshots -/

/-- A snapshot that is valid is read back from its bytes whatever follows them, and no snapshot,
neither this nor another, is read from a part of the bytes that ends too early. -/
theorem whole_or_undecodable {s : Snapshot} (h : s.IsCountable) :
    (s.validate = .ok () → ∀ more, ofBytes (s.toBytes ++ more) = .ok s) ∧
      ∀ p, p <+: s.toBytes → p ≠ s.toBytes → ofBytes p = .error .undecodable := by
  constructor
  · intro hv more
    rw [ofBytes_toBytes h, accept_some, hv]
    rfl
  · intro p hp hne
    rw [ofBytes, (reads h).torn isLocal_read hp hne]
    rfl

/-- A snapshot of a lamp with more bytes behind it, and without its last byte. -/
theorem whole_or_undecodable_lamp :
    let s : Snapshot :=
      { version := 1
        id := "lämp 1"
        taken := .epoch
        image := ⟨3, .lightness, .lightness 900, .lightness 0, [none, some (.lightness 7)],
          ⟨1200, 5, 1, 65535⟩, ⟨[⟨.lightness 0, .lightness 900, 77, .scene⟩], 32⟩⟩ }
    let p := s.toBytes.dropLast
    s.IsCountable ∧ s.validate = .ok () ∧ ofBytes (s.toBytes ++ [1, 0]) = .ok s ∧
      p <+: s.toBytes ∧ p ≠ s.toBytes ∧ ofBytes p = .error .undecodable := by
  intro s p
  have hcount : s.IsCountable := ⟨by decide +kernel, by decide, by decide⟩
  have hvalid : s.validate = .ok () := rfl
  have hprefix : p <+: s.toBytes := List.dropLast_prefix _
  have hne : p ≠ s.toBytes := by
    intro heq
    have hlen : p.length = s.toBytes.length - 1 := List.length_dropLast
    have hpos : 0 < s.toBytes.length := Nat.succ_pos _
    rw [heq] at hlen
    omega
  obtain ⟨hwhole, htorn⟩ := whole_or_undecodable hcount
  exact ⟨hcount, hvalid, hwhole hvalid _, hprefix, hne, htorn p hprefix hne⟩

end Snapshot

end MeshNode
