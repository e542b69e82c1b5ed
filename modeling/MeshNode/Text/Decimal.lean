/-! # Decimal numerals

Natural numbers and integers as digits, without leading zeros or padded to a width, and the value
of a run of digits. Reading the digits of a number gives the number back.
-/

namespace MeshNode.Text

def isDigit (c : Char) : Bool := '0' ≤ c && c ≤ '9'

def digitChar (d : Nat) : Char := Char.ofNat (48 + d)

def digitVal (c : Char) : Nat := c.toNat - 48

def digits (n : Nat) : List Char :=
  if n < 10 then [digitChar n] else digits (n / 10) ++ [digitChar (n % 10)]

/-- The last `width` digits of a number, with leading zeros. -/
def padded : Nat → Nat → List Char
  | 0, _ => []
  | width + 1, n => padded width (n / 10) ++ [digitChar (n % 10)]

def ofDigits (cs : List Char) : Nat := cs.foldl (fun n c => 10 * n + digitVal c) 0

def signed (i : Int) : List Char :=
  if i < 0 then '-' :: digits i.natAbs else digits i.natAbs

end MeshNode.Text
