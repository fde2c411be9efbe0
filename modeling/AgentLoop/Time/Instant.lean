import AgentLoop.Number.Decimal
import AgentLoop.Text.Scan

/-!
# Instants

Points in time to the nanosecond, read and written in the notation of RFC 3339.  Reading is lenient: a blank may
stand for the `T`, blanks may surround the parts, numbers may lack leading zeros, and a year may carry a sign.
Writing is strict: Coordinated Universal Time, a `Z`, and a fraction of no, three, six or nine digits.
-/

namespace AgentLoop

/-- Seconds since the beginning of 1970 and nanoseconds beyond them.  A leap second is the second before it with
nanoseconds from 10⁹ on. -/
structure Instant where
  seconds : Int := 0
  nanoseconds : Nat := 0
  deriving DecidableEq, Repr, Inhabited

namespace Instant

/-! ### The calendar -/

def isLeapYear (year : Int) : Bool :=
  year % 4 == 0 && (year % 100 != 0 || year % 400 == 0)

def daysInMonth (year : Int) (month : Nat) : Nat :=
  if month = 2 then (if isLeapYear year then 29 else 28)
  else if month = 4 ∨ month = 6 ∨ month = 9 ∨ month = 11 then 30 else 31

/-- Days from the first of January 1970, in the Gregorian calendar extended to all years.  Years are counted from
March on, so that the leap day is the last day of a year. -/
def daysOfDate (year : Int) (month day : Nat) : Int :=
  let y := if month ≤ 2 then year - 1 else year
  let m := if month ≤ 2 then month + 9 else month - 3
  365 * y + y / 4 - y / 100 + y / 400 + ((153 * m + 2) / 5 : Nat) + day - 719469

/-- The date of a day: year, month and day of the month. -/
def dateOfDays (days : Int) : Int × Nat × Nat :=
  let z := days + 719468
  let era := z / 146097
  let dayOfEra := z - 146097 * era
  let yearOfEra := (dayOfEra - dayOfEra / 1460 + dayOfEra / 36524 - dayOfEra / 146096) / 365
  let dayOfYear := dayOfEra - (365 * yearOfEra + yearOfEra / 4 - yearOfEra / 100)
  let m := ((5 * dayOfYear + 2) / 153).toNat
  let day := dayOfYear.toNat - (153 * m + 2) / 5 + 1
  let month := if m < 10 then m + 3 else m - 9
  (yearOfEra + 400 * era + (if month ≤ 2 then 1 else 0), month, day)

def leastYear : Int := -262143
def greatestYear : Int := 262142

/-- From the first day of the least year to the last one of the greatest. -/
def isInRange (t : Instant) : Bool :=
  86400 * daysOfDate leastYear 1 1 ≤ t.seconds && t.seconds < 86400 * (daysOfDate greatestYear 12 31 + 1)

/-! ### Reading -/

def skipBlanks : Scan Unit := Scan.skipWhile Text.isBlank

/-- At least one digit and at most `most`. -/
def number (most : Nat) : Scan Nat := do
  let digits ← Scan.takeUpTo most isDigit
  if digits.isEmpty then failure
  return ofDigits digits

def numberAfterBlanks (most : Nat) : Scan Nat := do
  skipBlanks
  number most

/-- A year: four digits at most, or any number of digits after a sign. -/
def year : Scan Int := do
  skipBlanks
  match ← get with
  | '-' :: r => set r; return -(← number r.length)
  | '+' :: r => set r; return ← number r.length
  | _ => return ← number 4

def fraction : Scan Nat := do
  match ← get with
  | '.' :: r =>
    let digits := (r.take 9).takeWhile isDigit
    if digits.isEmpty then failure
    set (r.dropWhile isDigit)
    return ofDigits digits * Nat.pow 10 (9 - digits.length)
  | _ => return 0

def isLetter (upper c : Char) : Bool := c.toUpper == upper

/-- Seconds east of Greenwich. -/
def offset : Scan Int := do
  match ← get with
  | u :: t :: c :: r =>
    if isLetter 'U' u && isLetter 'T' t && isLetter 'C' c then set r; return 0
  | _ => pure ()
  match ← get with
  | [] => failure
  | s :: r =>
    if isLetter 'Z' s then set r; return 0
    unless s = '+' ∨ s = '-' ∨ s = '−' do failure
    match r with
    | h₁ :: h₂ :: r =>
      unless isDigit h₁ && isDigit h₂ do failure
      match r.dropWhile fun c => c == ':' || Text.isBlank c with
      | m₁ :: m₂ :: r =>
        unless '0' ≤ m₁ && m₁ ≤ '5' && isDigit m₂ do failure
        set r
        let seconds : Int := 3600 * ofDigits [h₁, h₂] + 60 * ofDigits [m₁, m₂]
        return if s = '+' then seconds else -seconds
      | _ => failure
    | _ => failure

def scan : Scan Instant := do
  let y ← year
  skipBlanks
  Scan.exactly '-'
  let month ← numberAfterBlanks 2
  skipBlanks
  Scan.exactly '-'
  let day ← numberAfterBlanks 2
  let _ ← Scan.char fun c => isLetter 'T' c || c == ' '
  let hour ← numberAfterBlanks 2
  skipBlanks
  Scan.exactly ':'
  let minute ← numberAfterBlanks 2
  skipBlanks
  Scan.exactly ':'
  let second ← numberAfterBlanks 2
  let nanoseconds ← fraction
  skipBlanks
  let east ← offset
  skipBlanks
  unless leastYear ≤ y && y ≤ greatestYear && 1 ≤ month && month ≤ 12 && 1 ≤ day && day ≤ daysInMonth y month
      && hour ≤ 23 && minute ≤ 59 && second ≤ 60 && -86400 < east && east < 86400 do failure
  let leap := second = 60
  let clock : Int := 3600 * hour + 60 * minute + (if leap then 59 else second) - east
  let t : Instant :=
    ⟨86400 * daysOfDate y month day + clock, if leap then nanoseconds + 1000000000 else nanoseconds⟩
  -- the offset may lead out of the years
  unless t.isInRange do failure
  return t

def read (s : String) : Option Instant := scan.all? s

/-! ### Writing -/

/-- The number with zeros in front up to the width. -/
def padded (width n : Nat) : String :=
  let digits := Nat.repr n
  String.ofList (List.replicate (width - digits.length) '0') ++ digits

def yearText (year : Int) : String :=
  if 0 ≤ year ∧ year ≤ 9999 then padded 4 year.toNat
  else (if year < 0 then "-" else "+") ++ padded 4 year.natAbs

def fractionText (nanoseconds : Nat) : String :=
  if nanoseconds = 0 then ""
  else if nanoseconds % 1000000 = 0 then "." ++ padded 3 (nanoseconds / 1000000)
  else if nanoseconds % 1000 = 0 then "." ++ padded 6 (nanoseconds / 1000)
  else "." ++ padded 9 nanoseconds

def text (t : Instant) : String :=
  let (year, month, day) := dateOfDays (t.seconds / 86400)
  let clock := (t.seconds % 86400).toNat
  let leap := 1000000000 ≤ t.nanoseconds
  let second := clock % 60 + (if leap then 1 else 0)
  yearText year ++ "-" ++ padded 2 month ++ "-" ++ padded 2 day ++ "T" ++ padded 2 (clock / 3600) ++ ":" ++
    padded 2 (clock / 60 % 60) ++ ":" ++ padded 2 second ++
    fractionText (if leap then t.nanoseconds - 1000000000 else t.nanoseconds) ++ "Z"

end Instant

end AgentLoop
