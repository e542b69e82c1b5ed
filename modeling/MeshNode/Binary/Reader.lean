import MeshNode.Binary.Word

/-! # Binary records

Values as bytes: words in little-endian order, texts and lists with their length in front, and
alternatives by their number. A reader takes a value from the front of some bytes and leaves the
rest.
-/

namespace MeshNode.Binary

/-- A reader takes a value from the front, or finds that there is none. -/
abbrev Reader (α : Type) := List UInt8 → Option (α × List UInt8)

variable {α β : Type}

namespace Reader

def andThen (r : Reader α) (f : α → Reader β) : Reader β := fun bs =>
  match r bs with
  | some (a, rest) => f a rest
  | none => none

def pure (a : α) : Reader α := fun bs => some (a, bs)

instance : Monad Reader where
  pure := Reader.pure
  bind := andThen

def ofOption (a : Option α) : Reader α := fun bs => a.map (·, bs)

def take (n : Nat) : Reader (List UInt8) := fun bs =>
  if n ≤ bs.length then some (bs.take n, bs.drop n) else none

def word (width : Nat) : Reader Nat := do
  let bs ← take width
  return ofBytes bs

def count (read : Reader α) : Nat → Reader (List α)
  | 0 => Reader.pure []
  | n + 1 => do
    let a ← read
    let as ← count read n
    return a :: as

def list (read : Reader α) : Reader (List α) := do
  let n ← word 8
  count read n

def option (read : Reader α) : Reader (Option α) := do
  let tag ← word 1
  if tag = 0 then return none
  else if tag = 1 then return some (← read)
  else Reader.ofOption none

def text : Reader String := do
  let n ← word 8
  let bs ← take n
  ofOption (String.fromUTF8? ⟨bs.toArray⟩)

def choice (all : List α) : Reader α := do
  let n ← word 4
  ofOption all[n]?

end Reader

def writeList (write : α → List UInt8) (as : List α) : List UInt8 :=
  toBytes 8 as.length ++ as.flatMap write

/-- A value that may be missing, behind a byte that says so. -/
def writeOption (write : α → List UInt8) : Option α → List UInt8
  | none => toBytes 1 0
  | some a => toBytes 1 1 ++ write a

def writeText (s : String) : List UInt8 :=
  toBytes 8 s.toUTF8.data.toList.length ++ s.toUTF8.data.toList

/-- An alternative without content by its number. -/
def writeChoice [DecidableEq α] (all : List α) (a : α) : List UInt8 :=
  toBytes 4 (all.idxOf a)

end MeshNode.Binary
