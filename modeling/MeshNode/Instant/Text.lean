import MeshNode.Instant.Basic
import MeshNode.Text.Blank
import MeshNode.Text.Decimal

/-! # Timestamps

An instant is written as date, `T`, time and `Z`, with the fewest of no, three, six or nine digits
of a fraction that are exact. It is read leniently: blanks are allowed around the parts, the date
and the time may be apart by a blank, and an offset from universal time is taken off.
-/

namespace MeshNode.Instant

open Text

/-- A year: four digits, or more behind a sign if it has no four. -/
def yearText (year : Int) : List Char :=
  if 0 ≤ year ∧ year ≤ 9999 then padded 4 year.toNat
  else (if year < 0 then '-' else '+') ::
    (if year.natAbs < 10000 then padded 4 year.natAbs else digits year.natAbs)

/-- A fraction of a second in the fewest groups of three digits that are exact. -/
def fractionText (nano : Nat) : List Char :=
  if nano = 0 then []
  else if nano % 1000000 = 0 then '.' :: padded 3 (nano / 1000000)
  else if nano % 1000 = 0 then '.' :: padded 6 (nano / 1000)
  else '.' :: padded 9 nano

def dateText (d : Date) : List Char :=
  yearText d.year ++ '-' :: (padded 2 d.month ++ '-' :: padded 2 d.day)

def timeText (hour minute second nano : Nat) : List Char :=
  padded 2 hour ++ ':' :: (padded 2 minute ++ ':' :: (padded 2 second ++ fractionText nano))

def render (i : Instant) : List Char :=
  dateText i.date ++ 'T' :: (timeText i.hour i.minute i.second i.nano ++ ['Z'])

def toText (i : Instant) : String := String.ofList (render i)

/-- The number at the start of a text, of at least one and at most `width` digits. -/
def number? (width : Nat) (cs : List Char) : Option (Nat × List Char) :=
  match (cs.take width).takeWhile isDigit with
  | [] => none
  | ds => some (ofDigits ds, cs.drop ds.length)

/-- The year at the start of a text: up to four digits, or any number behind a sign. -/
def year? : List Char → Option (Int × List Char)
  | '-' :: rest => (number? rest.length rest).map fun r => (-(r.1 : Int), r.2)
  | '+' :: rest => (number? rest.length rest).map fun r => ((r.1 : Int), r.2)
  | cs => (number? 4 cs).map fun r => ((r.1 : Int), r.2)

def mark? (c : Char) (cs : List Char) : Option (List Char) :=
  match skipBlanks cs with
  | d :: rest => if d = c then some rest else none
  | [] => none

def date? (cs : List Char) : Option (Date × List Char) := do
  let (year, rest) ← year? (skipBlanks cs)
  let (month, rest) ← number? 2 (skipBlanks (← mark? '-' rest))
  let (day, rest) ← number? 2 (skipBlanks (← mark? '-' rest))
  return (← Date.ofParts? year month day, rest)

/-- The nanoseconds that the digits of a fraction stand for; digits beyond the ninth are dropped. -/
def nanoOf (ds : List Char) : Nat := ofDigits ((ds ++ List.replicate 9 '0').take 9)

def fraction? : List Char → Option (Nat × List Char)
  | '.' :: rest =>
    match rest.takeWhile isDigit with
    | [] => none
    | ds => some (nanoOf ds, rest.dropWhile isDigit)
  | cs => some (0, cs)

/-- The two digits at the start of a text, which hold a number up to a bound. -/
def pair? (bound : Nat) : List Char → Option (Nat × List Char)
  | a :: b :: rest =>
    if isDigit a && isDigit b && ofDigits [a, b] ≤ bound then some (ofDigits [a, b], rest) else none
  | _ => none

def skipColons (cs : List Char) : List Char := cs.dropWhile fun c => c = ':' || isBlank c

def clock? (cs : List Char) : Option (Nat × List Char) := do
  let (hours, rest) ← pair? 23 cs
  let (minutes, rest) ← pair? 59 (skipColons rest)
  return (60 * hours + minutes, rest)

def offset? : List Char → Option (Int × List Char)
  | 'Z' :: rest => some (0, rest)
  | 'z' :: rest => some (0, rest)
  | '+' :: rest => (clock? rest).map fun r => ((r.1 : Int), r.2)
  | '-' :: rest => (clock? rest).map fun r => (-(r.1 : Int), r.2)
  | '\u2212' :: rest => (clock? rest).map fun r => (-(r.1 : Int), r.2)
  | u :: t :: c :: rest =>
    if u.toUpper = 'U' ∧ t.toUpper = 'T' ∧ c.toUpper = 'C' then some (0, rest) else none
  | _ => none

def afterDate? : List Char → Option (List Char)
  | 'T' :: rest => some rest
  | 't' :: rest => some rest
  | ' ' :: rest => some rest
  | _ => none

def ofChars? (cs : List Char) : Option Instant := do
  let (date, rest) ← date? cs
  let (hour, rest) ← number? 2 (skipBlanks (← afterDate? rest))
  let (minute, rest) ← number? 2 (skipBlanks (← mark? ':' rest))
  let (second, rest) ← number? 2 (skipBlanks (← mark? ':' rest))
  let (nano, rest) ← fraction? rest
  let (offset, rest) ← offset? (skipBlanks rest)
  let written ← Instant.ofParts? date hour minute second nano
  if skipBlanks rest = [] then written.minutesBefore? offset else none

def ofText? (s : String) : Option Instant := ofChars? s.toList

end MeshNode.Instant
