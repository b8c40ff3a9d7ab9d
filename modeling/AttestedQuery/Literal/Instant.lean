import AttestedQuery.Number.Decimal

/-!
# Points in time

The lexical forms of `xsd:dateTime` with a time zone, and the exact instants they name. Years run
through zero; a year has at least four digits and more only without a leading zero. The hour 24
names the midnight that ends the day. Fractions of a second have at most eighteen digits, trailing
zeros not counted, so that an instant is a whole number of attoseconds.
-/

set_option autoImplicit false

namespace AttestedQuery

structure Instant where
  year : Int
  month : Nat
  day : Nat
  hour : Nat
  minute : Nat
  second : Nat
  /-- The fraction of the second in units of 10⁻¹⁸. -/
  attos : Nat
  /-- Minutes by which the local time is ahead of universal time. -/
  zone : Int
  deriving DecidableEq, Repr

namespace Instant

def isLeap (year : Int) : Bool :=
  year % 400 == 0 || (year % 4 == 0 && year % 100 != 0)

def daysInMonth (year : Int) (month : Nat) : Nat :=
  if month = 2 then (if isLeap year then 29 else 28)
  else if month = 4 ∨ month = 6 ∨ month = 9 ∨ month = 11 then 30
  else 31

/-- Days from the first of January 1970 to a date of the Gregorian calendar. Years are counted
from March, in cycles of 400 years of 146097 days. -/
def daysFromEpoch (year : Int) (month day : Nat) : Int :=
  let shifted := if month ≤ 2 then year - 1 else year
  let cycle := shifted / 400
  let yearOfCycle := shifted - cycle * 400
  let monthFromMarch := if month ≤ 2 then month + 9 else month - 3
  let dayOfYear := (153 * monthFromMarch + 2) / 5 + (day - 1)
  let dayOfCycle := yearOfCycle * 365 + yearOfCycle / 4 - yearOfCycle / 100 + (dayOfYear : Int)
  cycle * 146097 + dayOfCycle - 719468

def attosPerSecond : Nat := Nat.pow 10 18

/-- The exact time since 1970-01-01T00:00:00Z in attoseconds. -/
def sinceEpoch (t : Instant) : Int :=
  let seconds := daysFromEpoch t.year t.month t.day * 86400
    + (t.hour * 3600 + t.minute * 60 + t.second : Nat) - t.zone * 60
  seconds * attosPerSecond + t.attos

/-- Milliseconds since 1970-01-01T00:00:00Z, rounded down. -/
def millis (t : Instant) : Int :=
  t.sinceEpoch / (attosPerSecond / 1000 : Nat)

def twoDigits : List Char → Option (Nat × List Char)
  | a :: b :: rest =>
    if a.isDigit && b.isDigit then some (Decimal.value [a, b], rest) else none
  | _ => none

def mark (expected : Char) : List Char → Option (List Char)
  | c :: rest => if c = expected then some rest else none
  | [] => none

def readYear (text : List Char) : Option (Int × List Char) :=
  let (negative, text) := match text with
    | '-' :: rest => (true, rest)
    | rest => (false, rest)
  let (digits, rest) := text.span Char.isDigit
  if digits.length < 4 ∨ (4 < digits.length ∧ digits.head? = some '0') then none
  else
    let year := Decimal.value digits
    some (if negative then -(year : Int) else year, rest)

def readFraction : List Char → Option (Nat × List Char)
  | '.' :: rest =>
    let (digits, rest) := rest.span Char.isDigit
    let significant := (digits.reverse.dropWhile (· == '0')).reverse
    if digits.isEmpty ∨ 18 < significant.length then none
    else some (Decimal.value significant * Nat.pow 10 (18 - significant.length), rest)
  | rest => some (0, rest)

def readZone : List Char → Option Int
  | ['Z'] => some 0
  | sign :: rest => do
    let factor : Int ← if sign = '+' then some 1 else if sign = '-' then some (-1) else none
    let (hours, rest) ← twoDigits rest
    let rest ← mark ':' rest
    let (minutes, rest) ← twoDigits rest
    if rest.isEmpty ∧ minutes < 60 ∧ (hours < 14 ∨ (hours = 14 ∧ minutes = 0)) then
      some (factor * (hours * 60 + minutes : Nat))
    else none
  | [] => none

/-- Whether the fields name a day of the calendar and a time of that day. -/
def isValid (t : Instant) : Bool :=
  1 ≤ t.month && t.month ≤ 12 && 1 ≤ t.day && t.day ≤ daysInMonth t.year t.month
    && t.minute < 60 && t.second < 60
    && (t.hour < 24 || (t.hour == 24 && t.minute == 0 && t.second == 0 && t.attos == 0))

def parse (text : List Char) : Option Instant := do
  let (year, rest) ← readYear text
  let rest ← mark '-' rest
  let (month, rest) ← twoDigits rest
  let rest ← mark '-' rest
  let (day, rest) ← twoDigits rest
  let rest ← mark 'T' rest
  let (hour, rest) ← twoDigits rest
  let rest ← mark ':' rest
  let (minute, rest) ← twoDigits rest
  let rest ← mark ':' rest
  let (second, rest) ← twoDigits rest
  let (attos, rest) ← readFraction rest
  let zone ← readZone rest
  let t : Instant := ⟨year, month, day, hour, minute, second, attos, zone⟩
  if t.isValid then some t else none

end Instant

end AttestedQuery
