import MeshNode.Json.Basic
import MeshNode.Text.Decimal
import MeshNode.Text.Hex

/-! # Reading JSON

The strict grammar of JSON. A text is read whole: only blanks may follow the value.
-/

namespace MeshNode.Json

def isSpace (c : Char) : Bool := c = ' ' || c = '\n' || c = '\t' || c = '\r'

def skip (cs : List Char) : List Char := cs.dropWhile isSpace

def someDigits? (cs : List Char) : Option (List Char × List Char) :=
  match cs.takeWhile Text.isDigit with
  | [] => none
  | ds => some (ds, cs.dropWhile Text.isDigit)

/-- The digits of the whole part of a numeral: a zero alone, or a run that starts with another. -/
def wholePart? : List Char → Option (List Char × List Char)
  | '0' :: rest => some (['0'], rest)
  | cs => someDigits? cs

/-- Whether the text starts with a fraction, and what follows it; `none` if it is cut short. -/
def fraction? : List Char → Option (Bool × List Char)
  | '.' :: rest => (someDigits? rest).map fun r => (true, r.2)
  | cs => some (false, cs)

def skipSign : List Char → List Char
  | '+' :: rest => rest
  | '-' :: rest => rest
  | cs => cs

/-- Whether the text starts with an exponent, and what follows it; `none` if it is cut short. -/
def exponent? : List Char → Option (Bool × List Char)
  | 'e' :: rest => (someDigits? (skipSign rest)).map fun r => (true, r.2)
  | 'E' :: rest => (someDigits? (skipSign rest)).map fun r => (true, r.2)
  | cs => some (false, cs)

def numeral? (negative : Bool) (cs : List Char) : Option (Json × List Char) := do
  let (ds, rest) ← wholePart? cs
  let (hasFraction, rest) ← fraction? rest
  let (hasExponent, rest) ← exponent? rest
  let n := Text.ofDigits ds
  if hasFraction || hasExponent || (negative && n = 0) then return (real, rest)
  else return (int (if negative then -(n : Int) else n), rest)

def number? : List Char → Option (Json × List Char)
  | '-' :: rest => numeral? true rest
  | cs => numeral? false cs

/-- A piece of a string: a character, or half of a surrogate pair. -/
inductive Piece where
  | char (c : Char)
  | high (unit : Nat)
  | low (unit : Nat)

def Piece.ofUnit (n : Nat) : Piece :=
  if 0xD800 ≤ n ∧ n < 0xDC00 then high n
  else if 0xDC00 ≤ n ∧ n < 0xE000 then low n
  else char (Char.ofNat n)

/-- The characters that pieces make up, the halves of each surrogate pair joined. -/
def Piece.join : List Piece → Option (List Char)
  | [] => some []
  | .char c :: rest => (join rest).map (c :: ·)
  | .high a :: .low b :: rest =>
    (join rest).map (Char.ofNat (0x10000 + (a - 0xD800) * 0x400 + (b - 0xDC00)) :: ·)
  | _ => none

def escaped? (c : Char) : Option Char :=
  if c = '"' || c = '\\' || c = '/' then some c
  else if c = 'b' then some '\x08'
  else if c = 'f' then some '\x0c'
  else if c = 'n' then some '\n'
  else if c = 'r' then some '\r'
  else if c = 't' then some '\t'
  else none

def unit? (a b c d : Char) : Option Nat := do
  return (((← Text.hexVal? a) * 16 + (← Text.hexVal? b)) * 16 + (← Text.hexVal? c)) * 16 +
    (← Text.hexVal? d)

def pieces? : List Char → Option (List Piece × List Char)
  | [] => none
  | '"' :: rest => some ([], rest)
  | '\\' :: 'u' :: a :: b :: c :: d :: rest => do
    let n ← unit? a b c d
    let (ps, rest) ← pieces? rest
    return (.ofUnit n :: ps, rest)
  | '\\' :: c :: rest => do
    let c ← escaped? c
    let (ps, rest) ← pieces? rest
    return (.char c :: ps, rest)
  | c :: rest =>
    if c.toNat < 0x20 ∨ c = '\\' then none
    else (pieces? rest).map fun r => (.char c :: r.1, r.2)

def string? (cs : List Char) : Option (Option String × List Char) :=
  (pieces? cs).map fun r => ((Piece.join r.1).map String.ofList, r.2)

def expect? (c : Char) (cs : List Char) : Option (List Char) :=
  match skip cs with
  | d :: rest => if d = c then some rest else none
  | [] => none

mutual

/-- Read a value. The first argument bounds the number of tokens. -/
def value? : Nat → List Char → Option (Json × List Char)
  | 0, _ => none
  | fuel + 1, cs =>
    match skip cs with
    | 'n' :: 'u' :: 'l' :: 'l' :: rest => some (null, rest)
    | 't' :: 'r' :: 'u' :: 'e' :: rest => some (bool true, rest)
    | 'f' :: 'a' :: 'l' :: 's' :: 'e' :: rest => some (bool false, rest)
    | '"' :: rest => (string? rest).map fun r => (str r.1, r.2)
    | '[' :: rest =>
      match expect? ']' rest with
      | some rest => some (arr [], rest)
      | none => (items? fuel rest).map fun r => (arr r.1, r.2)
    | '{' :: rest =>
      match expect? '}' rest with
      | some rest => some (obj [], rest)
      | none => (fields? fuel rest).map fun r => (obj r.1, r.2)
    | cs => number? cs

def items? : Nat → List Char → Option (List Json × List Char)
  | 0, _ => none
  | fuel + 1, cs => do
    let (v, rest) ← value? fuel cs
    match skip rest with
    | ',' :: rest => do
      let (vs, rest) ← items? fuel rest
      return (v :: vs, rest)
    | ']' :: rest => return ([v], rest)
    | _ => none

def fields? : Nat → List Char → Option (List (Option String × Json) × List Char)
  | 0, _ => none
  | fuel + 1, cs => do
    let (key, rest) ← string? (← expect? '"' cs)
    let (v, rest) ← value? fuel (← expect? ':' rest)
    match skip rest with
    | ',' :: rest => do
      let (vs, rest) ← fields? fuel rest
      return ((key, v) :: vs, rest)
    | '}' :: rest => return ([(key, v)], rest)
    | _ => none

end

/-- Read a whole text: one value and nothing but blanks after it. Each value takes at least one
character, so the length of the text bounds the number of tokens. -/
def ofChars? (cs : List Char) : Option Json :=
  match value? (cs.length + 1) cs with
  | some (v, rest) => if skip rest = [] then some v else none
  | none => none

def parse? (s : String) : Option Json := ofChars? s.toList

end MeshNode.Json
