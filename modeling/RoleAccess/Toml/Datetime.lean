import RoleAccess.Text.Digits

/-!
Dates and times: a date, a time of day, or both with or without an offset. They are checked against
the calendar, and keep which parts of the time of day were given.
-/

set_option autoImplicit false
set_option relaxedAutoImplicit false

namespace RoleAccess.Toml

open Text

structure Date where
  year : Nat
  month : Nat
  day : Nat
deriving DecidableEq, Repr

/-- A second may be a leap second. The seconds may be left out, and so may their fraction. -/
structure Time where
  hour : Nat
  minute : Nat
  second : Option Nat := none
  nanos : Option Nat := none
deriving DecidableEq, Repr

inductive Offset where
  | utc
  | minutes (west : Bool) (count : Nat)
deriving DecidableEq, Repr

/-- A date, a time of day, or a date with a time and perhaps an offset. -/
inductive Datetime where
  | date (d : Date)
  | time (t : Time)
  | moment (d : Date) (t : Time) (offset : Option Offset)
deriving DecidableEq, Repr

namespace Date

def isLeap (year : Nat) : Bool := year % 4 == 0 && (year % 100 != 0 || year % 400 == 0)

def daysIn (year month : Nat) : Nat :=
  if month = 2 then if isLeap year then 29 else 28
  else if [4, 6, 9, 11].contains month then 30
  else 31

def isValid (d : Date) : Bool :=
  1 ≤ d.month && d.month ≤ 12 && 1 ≤ d.day && d.day ≤ daysIn d.year d.month

end Date

/-- A number in decimal digits with zeros in front up to a width. -/
def padded (width n : Nat) : List Char :=
  let digits := Nat.toDigits 10 n
  List.replicate (width - digits.length) '0' ++ digits

def Date.write (d : Date) : List Char :=
  padded 4 d.year ++ '-' :: (padded 2 d.month ++ '-' :: padded 2 d.day)

/-- The fraction of a second with its point, without zeros after its first digit that end it. -/
def writeFraction (nanos : Nat) : List Char :=
  match ((padded 9 nanos).reverse.dropWhile (· == '0')).reverse with
  | [] => ['.', '0']
  | digits => '.' :: digits

def Time.write (t : Time) : List Char :=
  padded 2 t.hour ++ ':' :: (padded 2 t.minute ++
    (t.second.elim [] (fun second ↦ ':' :: padded 2 second) ++ t.nanos.elim [] writeFraction))

/-- The same time with seconds, and without a fraction that is zero. -/
def Time.completed (t : Time) : Time :=
  { t with second := some (t.second.getD 0), nanos := t.nanos.filter (· != 0) }

def Offset.write : Offset → List Char
  | .utc => ['Z']
  | .minutes west count =>
    (if west && count != 0 then '-' else '+') ::
      (padded 2 (count / 60) ++ ':' :: padded 2 (count % 60))

namespace Datetime

/-- A date or time in its one written form, with the parts that were given. -/
def write (d : Datetime) : String :=
  String.ofList <|
    match d with
    | .date d => d.write
    | .time t => t.write
    | .moment d t offset => d.write ++ 'T' :: (t.write ++ (offset.map Offset.write).getD [])

def completed : Datetime → Datetime
  | .date d => .date d
  | .time t => .time t.completed
  | .moment d t offset => .moment d t.completed offset

end Datetime

/-- The number in exactly so many digits at the start of a text. -/
def readWidth (width : Nat) (s : List Char) : Option (Nat × List Char) :=
  let digits := s.take width
  if digits.length = width && digits.all isDigit then some (numberOf 10 digits, s.drop width)
  else none

def readDate (s : List Char) : Option (Date × List Char) := do
  let (year, s) ← readWidth 4 s
  let '-' :: s := s | none
  let (month, s) ← readWidth 2 s
  let '-' :: s := s | none
  let (day, s) ← readWidth 2 s
  let date : Date := ⟨year, month, day⟩
  if date.isValid then some (date, s) else none

/-- Reads the digits of a fraction; those past the ninth do not count. -/
def readFraction (s : List Char) : Option (Nat × List Char) :=
  match spanDigits s with
  | ([], _) => none
  | (digits, rest) =>
    some (numberOf 10 ((digits ++ List.replicate 9 '0').take 9), rest)

/-- Reads hours and minutes. -/
def readClock (s : List Char) : Option (Nat × Nat × List Char) := do
  let (hour, s) ← readWidth 2 s
  let ':' :: s := s | none
  let (minute, s) ← readWidth 2 s
  if hour ≤ 23 && minute ≤ 59 then some (hour, minute, s) else none

/-- Reads a time of day. -/
def readTime (s : List Char) : Option (Time × List Char) := do
  let (hour, minute, s) ← readClock s
  match s with
  | ':' :: s =>
    let (second, s) ← readWidth 2 s
    if 60 < second then none
    else
      match s with
      | '.' :: s =>
        let (nanos, s) ← readFraction s
        return (⟨hour, minute, some second, some nanos⟩, s)
      | _ => return (⟨hour, minute, some second, none⟩, s)
  | _ => return (⟨hour, minute, none, none⟩, s)

/-- Reads an offset up to the end of a text; the empty text is none. -/
def readOffset : List Char → Option (Option Offset)
  | [] => some none
  | ['Z'] | ['z'] => some (some .utc)
  | sign :: s => do
    let west ← if sign = '-' then some true else if sign = '+' then some false else none
    match ← readClock s with
    | (hours, minutes, []) => return some (.minutes west (60 * hours + minutes))
    | _ => none

def isDateMark (c : Char) : Bool := c == 'T' || c == 't' || c == ' '

/-- The date or time that a whole text stands for. -/
def datetime? (s : List Char) : Option Datetime :=
  match readDate s with
  | some (date, []) => some (.date date)
  | some (date, mark :: s) =>
    if !isDateMark mark then none
    else do
      let (time, s) ← readTime s
      return .moment date time (← readOffset s)
  | none =>
    match readTime s with
    | some (time, []) => some (.time time)
    | _ => none

end RoleAccess.Toml
