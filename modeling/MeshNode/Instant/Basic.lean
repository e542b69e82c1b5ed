/-! # Instants

Dates of the Gregorian calendar, continued into the past, and instants of universal time to the
nanosecond. A minute may have a leap second.
-/

namespace MeshNode

namespace Calendar

def isLeap (year : Int) : Bool :=
  year % 4 = 0 && (year % 100 ≠ 0 || year % 400 = 0)

def daysIn (year : Int) (month : Nat) : Nat :=
  if month = 2 then (if isLeap year then 29 else 28)
  else if month = 4 ∨ month = 6 ∨ month = 9 ∨ month = 11 then 30
  else 31

def firstYear : Int := -262143

def lastYear : Int := 262142

end Calendar

structure Date where
  year : Int
  month : Nat
  day : Nat
  year_mem : Calendar.firstYear ≤ year ∧ year ≤ Calendar.lastYear
  month_mem : 1 ≤ month ∧ month ≤ 12
  day_mem : 1 ≤ day ∧ day ≤ Calendar.daysIn year month
  deriving DecidableEq

namespace Date

def ofParts? (year : Int) (month day : Nat) : Option Date :=
  if h : (Calendar.firstYear ≤ year ∧ year ≤ Calendar.lastYear) ∧ (1 ≤ month ∧ month ≤ 12) ∧
      (1 ≤ day ∧ day ≤ Calendar.daysIn year month) then
    some ⟨year, month, day, h.1, h.2.1, h.2.2⟩
  else none

def next? (d : Date) : Option Date :=
  if d.day < Calendar.daysIn d.year d.month then ofParts? d.year d.month (d.day + 1)
  else if d.month < 12 then ofParts? d.year (d.month + 1) 1
  else ofParts? (d.year + 1) 1 1

def previous? (d : Date) : Option Date :=
  if 1 < d.day then ofParts? d.year d.month (d.day - 1)
  else if 1 < d.month then ofParts? d.year (d.month - 1) (Calendar.daysIn d.year (d.month - 1))
  else ofParts? (d.year - 1) 12 31

end Date

/-- An instant of universal time. Second 60 is a leap second. -/
structure Instant where
  date : Date
  hour : Nat
  minute : Nat
  second : Nat
  nano : Nat
  hour_lt : hour < 24
  minute_lt : minute < 60
  second_le : second ≤ 60
  nano_lt : nano < 1000000000
  deriving DecidableEq

namespace Instant

def epoch : Instant :=
  ⟨⟨1970, 1, 1, by decide, by decide, by decide⟩, 0, 0, 0, 0, by decide, by decide, by decide,
    by decide⟩

def ofParts? (date : Date) (hour minute second nano : Nat) : Option Instant :=
  if h : hour < 24 ∧ minute < 60 ∧ second ≤ 60 ∧ nano < 1000000000 then
    some ⟨date, hour, minute, second, nano, h.1, h.2.1, h.2.2.1, h.2.2.2⟩
  else none

def minutesBefore? (i : Instant) (minutes : Int) : Option Instant :=
  let m : Int := i.hour * 60 + i.minute - minutes
  if m < 0 then do
    let day ← i.date.previous?
    ofParts? day ((m + 1440) / 60).toNat ((m + 1440) % 60).toNat i.second i.nano
  else if 1440 ≤ m then do
    let day ← i.date.next?
    ofParts? day ((m - 1440) / 60).toNat ((m - 1440) % 60).toNat i.second i.nano
  else ofParts? i.date (m / 60).toNat (m % 60).toNat i.second i.nano

end Instant

end MeshNode
