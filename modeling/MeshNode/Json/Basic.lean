/-! # JSON values

A JSON value as it is read: numbers are kept if they are integers, and a string whose escapes do
not make up characters stands for no text. Records are read from an object by the names of their
fields, or from an array by their order.
-/

namespace MeshNode

/-- A JSON value. A string or a key is `none` if it holds half of a surrogate pair; such a text
is well-formed but stands for no characters. -/
inductive Json where
  | null
  | bool (value : Bool)
  | int (value : Int)
  /-- A numeral with a fraction, an exponent or a minus sign before zero. -/
  | real
  | str (text : Option String)
  | arr (items : List Json)
  | obj (fields : List (Option String × Json))

namespace Json

def text (s : String) : Json := str (some s)

def nat (n : Nat) : Json := int n

def mk (fields : List (String × Json)) : Json := obj (fields.map fun f => (some f.1, f.2))

def text? : Json → Option String
  | str s => s
  | _ => none

def int? (lo hi : Int) : Json → Option Int
  | int i => if lo ≤ i ∧ i ≤ hi then some i else none
  | _ => none

def nat? (bound : Nat) : Json → Option Nat
  | int i => if 0 ≤ i ∧ i < bound then some i.toNat else none
  | _ => none

def word8? (j : Json) : Option UInt8 := (j.nat? UInt8.size).map UInt8.ofNat

def word16? (j : Json) : Option UInt16 := (j.nat? UInt16.size).map UInt16.ofNat

def word32? (j : Json) : Option UInt32 := (j.nat? UInt32.size).map UInt32.ofNat

def word64? (j : Json) : Option UInt64 := (j.nat? UInt64.size).map UInt64.ofNat

def arr? : Json → Option (List Json)
  | arr items => some items
  | _ => none

def list? {α : Type} (read : Json → Option α) (j : Json) : Option (List α) :=
  j.arr?.bind fun items => items.mapM read

/-- A value that may be missing: null stands for a missing one. -/
def option? {α : Type} (read : Json → Option α) : Json → Option (Option α)
  | null => some none
  | j => (read j).map some

def variant? : Json → Option (String × Option Json)
  | str s => s.map fun name => (name, none)
  | obj [(some name, content)] => some (name, some content)
  | _ => none

/-- Whether the content of an alternative that has none is missing or null. -/
def isBlank : Option Json → Bool
  | none | some null => true
  | _ => false

def named? {α : Type} (name : α → String) (all : List α) (s : String) : Option α :=
  all.find? fun a => name a = s

def choice? {α : Type} (name : α → String) (all : List α) (j : Json) : Option α :=
  match j.variant? with
  | some (s, content) => if isBlank content then named? name all s else none
  | none => none

/-- The only value under a key; no value if there is none, and a failure if there are several. -/
def unique? (fields : List (Option String × Json)) (name : String) : Option (Option Json) :=
  match fields.filter (·.1 = some name) with
  | [] => some none
  | [(_, v)] => some (some v)
  | _ => none

/-- The values of the named fields of a record, each of them possibly missing. An object gives
them by name, each at most once, and may hold other fields; an array gives the first of them in
order. -/
def record? (names : List String) : Json → Option (List (Option Json))
  | obj fields => if fields.all (·.1.isSome) then names.mapM (unique? fields) else none
  | arr items =>
    if items.length ≤ names.length then
      some (items.map some ++ List.replicate (names.length - items.length) none)
    else none
  | _ => none

/-- Read a field, or take its default if it is missing. -/
def orElse {α : Type} (read : Json → Option α) (default : α) : Option Json → Option α
  | none => some default
  | some j => read j

end Json

end MeshNode
