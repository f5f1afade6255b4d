/-!
Points in time, as a day of the calendar and a time of that day, and the parts of their written
forms that several notations share.
-/

namespace Lowering

/-- A point in time as a clock shows it that is ahead of the prime meridian by some minutes. -/
structure Timestamp where
  year : Int
  month : Nat
  day : Nat
  hour : Nat := 0
  minute : Nat := 0
  second : Nat := 0
  nanosecond : Nat := 0
  ahead : Int := 0
deriving DecidableEq, Repr

namespace Timestamp

def isLeap (year : Int) : Bool := year % 4 = 0 && (year % 100 ≠ 0 || year % 400 = 0)

def daysIn (year : Int) (month : Nat) : Nat :=
  if month = 2 then if isLeap year then 29 else 28
  else if month = 4 || month = 6 || month = 9 || month = 11 then 30
  else 31

/-- A day, if the calendar has it. -/
def ofDay? (year : Int) (month day : Nat) : Option Timestamp :=
  if 1 ≤ month && month ≤ 12 && 1 ≤ day && day ≤ daysIn year month then some { year, month, day }
  else none

/-- The point in time that is so many seconds after the start of 1970. Years are counted from the
first of March, so that the day of a leap year is the last one. -/
def ofSeconds (seconds : Int) (nanosecond : Nat) : Timestamp :=
  let days := seconds.fdiv 86400
  let time := (seconds - days * 86400).toNat
  let era := (days + 719468).fdiv 146097
  let dayOfEra := (days + 719468 - era * 146097).toNat
  let yearOfEra := (dayOfEra - dayOfEra / 1460 + dayOfEra / 36524 - dayOfEra / 146096) / 365
  let dayOfYear := dayOfEra - (365 * yearOfEra + yearOfEra / 4 - yearOfEra / 100)
  let fromMarch := (5 * dayOfYear + 2) / 153
  let month := if fromMarch < 10 then fromMarch + 3 else fromMarch - 9
  { year := yearOfEra + era * 400 + (if month ≤ 2 then 1 else 0)
    month
    day := dayOfYear - (153 * fromMarch + 2) / 5 + 1
    hour := time / 3600
    minute := time / 60 % 60
    second := time % 60
    nanosecond }

/-- How many seconds the clock of a point in time is after that of the start of 1970. -/
def clockSeconds (t : Timestamp) : Int :=
  let year : Int := if t.month ≤ 2 then t.year - 1 else t.year
  let era := year.fdiv 400
  let yearOfEra := year - era * 400
  let fromMarch := if t.month > 2 then t.month - 3 else t.month + 9
  let dayOfYear : Int := (153 * fromMarch + 2) / 5 + t.day - 1
  let days := era * 146097 + yearOfEra * 365 + yearOfEra / 4 - yearOfEra / 100 + dayOfYear - 719468
  days * 86400 + 3600 * t.hour + 60 * t.minute + t.second

def numberOf (digits : List Char) : Nat := digits.foldl (fun n c => 10 * n + (c.toNat - 48)) 0

/-- So many digits. -/
def digits? (count : Nat) (cs : List Char) : Option (Nat × List Char) :=
  let digits := cs.take count
  if digits.length = count && digits.all Char.isDigit then some (numberOf digits, cs.drop count)
  else none

/-- One or two digits. -/
def shortNumber? (cs : List Char) : Option (Nat × List Char) :=
  match digits? 2 cs with
  | some found => some found
  | none => digits? 1 cs

def literal? (c : Char) : List Char → Option (List Char)
  | d :: rest => if d = c then some rest else none
  | [] => none

/-- The part of a second after the point, which may be missing, to nine digits. -/
def fractionOf : List Char → Nat × List Char
  | p :: d :: rest =>
    if (p = '.' || p = ',') && d.isDigit then
      let digits := (d :: rest).takeWhile Char.isDigit
      let kept := digits.take 9
      (numberOf (kept ++ List.replicate (9 - kept.length) '0'), (d :: rest).dropWhile Char.isDigit)
    else (0, p :: d :: rest)
  | cs => (0, cs)

/-- A time of a day. `part?` says how many digits minutes and seconds have. -/
def clock? (part? : List Char → Option (Nat × List Char)) (day : Timestamp) (cs : List Char) :
    Option (Timestamp × List Char) := do
  let (hour, rest) ← (shortNumber? cs).filter (·.1 < 24)
  let rest ← literal? ':' rest
  let (minute, rest) ← (part? rest).filter (·.1 < 60)
  let rest ← literal? ':' rest
  let (second, rest) ← (part? rest).filter (·.1 < 60)
  let (nanosecond, rest) := fractionOf rest
  some ({ day with hour, minute, second, nanosecond }, rest)

/-- A time zone: the letter of the prime meridian, or a difference from it. -/
def zone? : List Char → Option Int
  | ['Z'] => some 0
  | [sign, h₁, h₂, colon, m₁, m₂] =>
    let hours := numberOf [h₁, h₂]
    let minutes := numberOf [m₁, m₂]
    if (sign = '+' || sign = '-') && colon = ':' && [h₁, h₂, m₁, m₂].all Char.isDigit
        && hours ≤ 24 && minutes ≤ 60 then
      let size : Int := 60 * hours + minutes
      some (if sign = '-' then -size else size)
    else none
  | _ => none

/-- The form that is used between programs: every part but the hour has all its digits. -/
def parse? (cs : List Char) : Option Timestamp := do
  let (year, rest) ← digits? 4 cs
  let rest ← literal? '-' rest
  let (month, rest) ← digits? 2 rest
  let rest ← literal? '-' rest
  let (day, rest) ← digits? 2 rest
  let day ← ofDay? year month day
  let rest ← literal? 'T' rest
  let (time, rest) ← clock? (digits? 2) day rest
  let ahead ← zone? rest
  pure { time with ahead }

/-- A number with zeros in front. -/
def padded (width n : Nat) : String :=
  let digits := toString n
  String.ofList (List.replicate (width - digits.length) '0') ++ digits

/-- The difference from the prime meridian, as a clock's zone is written. -/
def zoneText (t : Timestamp) : String :=
  let size := t.ahead.natAbs
  (if t.ahead < 0 then "-" else "+") ++ padded 2 (size / 60) ++ padded 2 (size % 60)

/-- A point in time with its zone, which has a name only at the prime meridian. -/
def text (t : Timestamp) : String :=
  let fraction := ((padded 9 t.nanosecond).toList.reverse.dropWhile (· = '0')).reverse
  (if t.year < 0 then "-" else "") ++ padded 4 t.year.natAbs ++ "-" ++ padded 2 t.month ++ "-"
    ++ padded 2 t.day ++ " " ++ padded 2 t.hour ++ ":" ++ padded 2 t.minute ++ ":"
    ++ padded 2 t.second ++ (if fraction.isEmpty then "" else "." ++ String.ofList fraction)
    ++ " " ++ t.zoneText ++ " " ++ (if t.ahead = 0 then "UTC" else t.zoneText)

end Timestamp
end Lowering
