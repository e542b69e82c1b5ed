import MeshNode.Binary.Reader
import Mathlib.Data.List.Basic

/-! # Binary records are read back

A reader takes what was written for a value from the front of some bytes and leaves the rest, and
readers one after another take what was written one after another.
-/

namespace MeshNode.Binary.Reader

variable {α β : Type} {a : α} {b : β} {bs bs' rest : List UInt8} {r : Reader α} {width n : Nat}

/-- The reader takes the value from the front of its bytes, whatever follows them. -/
def Reads (r : Reader α) (bs : List UInt8) (a : α) : Prop :=
  ∀ rest, r (bs ++ rest) = some (a, rest)

/-- What comes after a value is read where its bytes end. -/
theorem Reads.bind_append (h : r.Reads bs a) (f : α → Reader β) (rest : List UInt8) :
    (r >>= f) (bs ++ rest) = f a rest := by
  change r.andThen f (bs ++ rest) = f a rest
  rw [andThen, h rest]

theorem reads_pure (a : α) : (pure a).Reads [] a := fun _ => rfl

theorem Reads.bind {f : α → Reader β} (h : r.Reads bs a) (hf : (f a).Reads bs' b) :
    Reads (r >>= f) (bs ++ bs') b := by
  intro rest
  rw [List.append_assoc, h.bind_append]
  exact hf rest

@[simp] theorem ofOption_bind (a : α) (f : α → Reader β) : (ofOption (some a) >>= f) = f a := rfl

theorem reads_take (bs : List UInt8) : (take bs.length).Reads bs bs := by
  intro rest
  rw [take, if_pos (by simp), List.take_left, List.drop_left]

theorem reads_word (h : n < Nat.pow 256 width) : (word width).Reads (toBytes width n) n := by
  have htake : (take width).Reads (toBytes width n) (toBytes width n) := by
    have := reads_take (toBytes width n)
    rwa [length_toBytes] at this
  intro rest
  rw [word, htake.bind_append, ofBytes_toBytes h]
  rfl

theorem reads_count {write : α → List UInt8} {as : List α}
    (h : ∀ a ∈ as, r.Reads (write a) a) : (count r as.length).Reads (as.flatMap write) as := by
  induction as with
  | nil => exact reads_pure []
  | cons a as ih =>
    have hrest := ih fun b hb => h b (List.mem_cons_of_mem a hb)
    intro rest
    rw [List.flatMap_cons, List.append_assoc, List.length_cons, count,
      (h a List.mem_cons_self).bind_append, hrest.bind_append]
    rfl

theorem reads_list {write : α → List UInt8} {as : List α} (hlen : as.length < Nat.pow 256 8)
    (h : ∀ a ∈ as, r.Reads (write a) a) : (list r).Reads (writeList write as) as :=
  (reads_word hlen).bind (reads_count h)

theorem reads_option {write : α → List UInt8} {a? : Option α}
    (h : ∀ a ∈ a?, r.Reads (write a) a) : (option r).Reads (writeOption write a?) a? := by
  intro rest
  cases a? with
  | none => rw [option, writeOption, (reads_word (by decide)).bind_append]; rfl
  | some a =>
    rw [option, writeOption, List.append_assoc, (reads_word (by decide)).bind_append]
    exact (h a rfl).bind_append _ rest

theorem reads_text {s : String} (h : s.utf8ByteSize < Nat.pow 256 8) :
    text.Reads (writeText s) s := by
  have hsize : s.toUTF8.data.toList.length = s.utf8ByteSize := rfl
  have hvalid : String.fromUTF8? ⟨s.toUTF8.data.toList.toArray⟩ = some s := by
    rw [Array.toArray_toList]
    exact dif_pos s.isValidUTF8
  intro rest
  rw [text, writeText, List.append_assoc, (reads_word (hsize ▸ h)).bind_append,
    (reads_take _).bind_append, hvalid]
  rfl

theorem reads_choice [DecidableEq α] {all : List α} (hlen : all.length < Nat.pow 256 4)
    (ha : a ∈ all) : (choice all).Reads (writeChoice all a) a := by
  have hidx : all.idxOf a < all.length := List.idxOf_lt_length_of_mem ha
  have hget : all[all.idxOf a]? = some a := by
    rw [List.getElem?_eq_getElem hidx, List.getElem_idxOf]
  intro rest
  rw [choice, writeChoice, (reads_word (Nat.lt_trans hidx hlen)).bind_append, hget]
  rfl

end MeshNode.Binary.Reader
