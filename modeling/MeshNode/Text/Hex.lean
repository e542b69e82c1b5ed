/-! # Hexadecimal numerals

Bytes as two lower-case hexadecimal digits, and the reading of such digits in either case.
-/

namespace MeshNode.Text

def hexChar (d : Nat) : Char := if d < 10 then Char.ofNat (48 + d) else Char.ofNat (87 + d)

def hexVal? (c : Char) : Option Nat :=
  let n := c.toNat
  if 48 ≤ n ∧ n ≤ 57 then some (n - 48)
  else if 97 ≤ n ∧ n ≤ 102 then some (n - 87)
  else if 65 ≤ n ∧ n ≤ 70 then some (n - 55)
  else none

def hexPadded : Nat → Nat → List Char
  | 0, _ => []
  | width + 1, n => hexPadded width (n / 16) ++ [hexChar (n % 16)]

def hexByte (b : UInt8) : List Char := hexPadded 2 b.toNat

def hexBytes (bs : List UInt8) : List Char := bs.flatMap hexByte

/-- The bytes that a run of hexadecimal digits stands for, two digits a byte. -/
def ofHexBytes? : List Char → Option (List UInt8)
  | [] => some []
  | [_] => none
  | a :: b :: rest => do
    let x ← hexVal? a
    let y ← hexVal? b
    return UInt8.ofNat (16 * x + y) :: (← ofHexBytes? rest)

/-- A byte with the mark of a hexadecimal numeral in front. -/
def markedHex (b : UInt8) : String := String.ofList ('0' :: 'x' :: hexByte b)

end MeshNode.Text
