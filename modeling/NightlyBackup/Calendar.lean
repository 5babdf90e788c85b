import NightlyBackup.IntWord
import NightlyBackup.Text.Blank
import NightlyBackup.Text.Number

/-!
Dates in the Gregorian calendar, extended in both directions. Moments are seconds since
the start of 1970, always UTC. The module writes watermarks (`Y:M:D:h:m:s`) and run stamps
(`YYYYMMDDhhmmss`), reads stamps, and counts days between moments.
-/

namespace NightlyBackup.Calendar

structure Date where
  year : Int
  month : Nat
  day : Nat
  deriving DecidableEq, Repr

def secondsPerDay : Int := 86400

def isLeap (year : Int) : Bool :=
  year % 4 = 0 && (year % 100 != 0 || year % 400 = 0)

def daysInMonth (year : Int) (month : Nat) : Nat :=
  if month = 2 then (if isLeap year then 29 else 28)
  else if month = 4 ∨ month = 6 ∨ month = 9 ∨ month = 11 then 30
  else 31

/-- Years that the calendar knows. -/
def firstYear : Int := -262143
def lastYear : Int := 262142

def Date.valid (d : Date) : Bool :=
  firstYear ≤ d.year && d.year ≤ lastYear && 1 ≤ d.month && d.month ≤ 12
    && 1 ≤ d.day && d.day ≤ daysInMonth d.year d.month

/-- Days from the first of January 1970. A year is counted from March, so that the leap
day is its last day; 400 such years have 146097 days. -/
def Date.toDays (d : Date) : Int :=
  let year := if d.month ≤ 2 then d.year - 1 else d.year
  let era := year / 400
  let yearOfEra := year % 400
  let monthFromMarch : Int := (d.month + 9) % 12
  let dayOfYear := (153 * monthFromMarch + 2) / 5 + d.day - 1
  let dayOfEra := yearOfEra * 365 + yearOfEra / 4 - yearOfEra / 100 + dayOfYear
  era * 146097 + dayOfEra - 719468

def Date.ofDays (days : Int) : Date :=
  let shifted := days + 719468
  let era := shifted / 146097
  let dayOfEra := shifted % 146097
  let yearOfEra :=
    (dayOfEra - dayOfEra / 1460 + dayOfEra / 36524 - dayOfEra / 146096) / 365
  let dayOfYear := dayOfEra - (365 * yearOfEra + yearOfEra / 4 - yearOfEra / 100)
  let monthFromMarch := (5 * dayOfYear + 2) / 153
  let day := (dayOfYear - (153 * monthFromMarch + 2) / 5 + 1).toNat
  let month := (if monthFromMarch < 10 then monthFromMarch + 3 else monthFromMarch - 9).toNat
  let year := yearOfEra + era * 400
  ⟨if month ≤ 2 then year + 1 else year, month, day⟩

/-! ## Writing moments -/

/-- A year: four digits at least, with a sign outside 0 to 9999. -/
def yearText (year : Int) : String :=
  let digits := toString year.natAbs
  let padded := "".pushn '0' (4 - digits.length) ++ digits
  if 0 ≤ year ∧ year ≤ 9999 then padded
  else (if year < 0 then "-" else "+") ++ padded

def fieldsOf (moment : Int) : Date × Nat × Nat × Nat :=
  let second := (moment % secondsPerDay).toNat
  (Date.ofDays (moment / secondsPerDay), second / 3600, second / 60 % 60, second % 60)

/-- A moment as a watermark, fields unpadded but for the year. A moment outside the
calendar counts as the start of 1970. -/
def watermark (moment : Int) : String :=
  let (date, h, m, s) := fieldsOf moment
  let (date, h, m, s) :=
    if firstYear ≤ date.year ∧ date.year ≤ lastYear then (date, h, m, s) else fieldsOf 0
  Text.joinWith ":"
    [yearText date.year, toString date.month, toString date.day, toString h, toString m,
      toString s]

def stamp (withTime : Bool) (moment : Int) : String :=
  let (date, h, m, s) := fieldsOf moment
  let day := yearText date.year ++ Text.twoDigits date.month ++ Text.twoDigits date.day
  if withTime then day ++ Text.twoDigits h ++ Text.twoDigits m ++ Text.twoDigits s else day

/-! ## Reading stamps -/

/-- Read a number of one to `width` digits after optional blanks. -/
def readField (width : Nat) (cs : List Char) : Option (Nat × List Char) :=
  let (digits, _) := Text.takeDigits ((Text.trimStart cs).take width)
  if digits.isEmpty then none
  else some (Text.digitsValue digits, (Text.trimStart cs).drop digits.length)

/-- Read a year after optional blanks: up to four digits, or any number of them after a
sign. -/
def readYear (cs : List Char) : Option (Int × List Char) :=
  match Text.trimStart cs with
  | '-' :: rest => signed (-1) rest
  | '+' :: rest => signed 1 rest
  | rest => (readField 4 rest).map fun (y, rest) => ((y : Int), rest)
where
  signed (sign : Int) (cs : List Char) : Option (Int × List Char) :=
    match Text.takeDigits cs with
    | ([], _) => none
    | (digits, rest) => some (sign * Text.digitsValue digits, rest)

def readDate (cs : List Char) : Option (Date × List Char) := do
  let (year, cs) ← readYear cs
  let (month, cs) ← readField 2 cs
  let (day, cs) ← readField 2 cs
  pure (⟨year, month, day⟩, cs)

/-- Read hour, minute and second as a second of the day; second 60 counts as 59. -/
def readTime (cs : List Char) : Option (Nat × List Char) := do
  let (hour, cs) ← readField 2 cs
  let (minute, cs) ← readField 2 cs
  let (second, cs) ← readField 2 cs
  if hour < 24 ∧ minute < 60 ∧ second ≤ 60 then
    pure (hour * 3600 + minute * 60 + min second 59, cs)
  else none

/-- The moment that a stamp of 8 or 14 bytes names; nothing may follow its fields. -/
def readStamp (stamp : String) : Option Int :=
  if stamp.utf8ByteSize = 8 then do
    let (date, rest) ← readDate stamp.toList
    if date.valid ∧ rest.isEmpty then some (date.toDays * secondsPerDay) else none
  else if stamp.utf8ByteSize = 14 then do
    let (date, rest) ← readDate stamp.toList
    let (second, rest) ← readTime rest
    if date.valid ∧ rest.isEmpty then some (date.toDays * secondsPerDay + second) else none
  else none

/-! ## Counting days -/

def dayLimit : Int := 2147483647

def clampDays (days : Int) : Int := max (-dayLimit - 1) (min days dayLimit)

/-- Whole days from one moment to another, rounded to the nearest, half a day away from
zero. -/
def daysBetween (start finish : Int) : Int :=
  let diff := finish - start
  clampDays <|
    if 0 ≤ diff then (diff + secondsPerDay / 2).tdiv secondsPerDay
    else (diff - secondsPerDay / 2).tdiv secondsPerDay

def daysOverflow? (start finish : Int) : Option Overflow :=
  let diff := finish - start
  (IntWord.signed64.check .subtract diff).or <|
    if 0 ≤ diff then IntWord.signed64.check .add (diff + secondsPerDay / 2)
    else IntWord.signed64.check .subtract (diff - secondsPerDay / 2)

end NightlyBackup.Calendar
