import Lowering.Timestamp

/-!
Dates and times of TOML. Those without a zone are times of no place in particular, and are only
kept as text. A failure is the text that tells it.
-/

namespace Lowering.Configuration.Toml
open Timestamp (padded)

/-- A number in which all characters are digits. -/
def decimal (cs : List Char) : Except String Nat :=
  if cs.all Char.isDigit then .ok (Timestamp.numberOf cs) else .error "expected digit (0-9)"

/-- A day of the calendar. -/
def day (cs : List Char) : Except String Timestamp := do
  if cs.length ≠ 10 || cs[4]? ≠ some '-' || cs[7]? ≠ some '-' then
    .error "dates are expected to have the format YYYY-MM-DD"
  else
    let year ← decimal (cs.take 4)
    let month ← decimal ((cs.drop 5).take 2)
    let day ← decimal ((cs.drop 8).take 2)
    match Timestamp.ofDay? year month day with
    | some day => pure day
    | none => .error "impossible date"

/-- A time of a day: the part of a second is kept with its number of digits. -/
structure Clock where
  hour : Nat
  minute : Nat
  second : Nat
  fraction : List Char := []

def Clock.text (t : Clock) : String :=
  padded 2 t.hour ++ ":" ++ padded 2 t.minute ++ ":" ++ padded 2 t.second
    ++ (if t.fraction.isEmpty then "" else "." ++ String.ofList t.fraction)

def Clock.nanosecond (t : Clock) : Nat :=
  Timestamp.numberOf (t.fraction ++ List.replicate (9 - t.fraction.length) '0')

/-- A time, and what follows it. -/
def clock (cs : List Char) : Except String (Clock × List Char) := do
  if cs.length < 8 then .error "times are expected to have the format HH:MM:SS[.NNNNNN]"
  else
    let hour ← decimal (cs.take 2)
    if hour > 23 then .error "hour cannot be greater 23"
    else if cs[2]? ≠ some ':' then .error "expecting colon between hours and minutes"
    else
      let minute ← decimal ((cs.drop 3).take 2)
      if minute > 59 then .error "minutes cannot be greater 59"
      else if cs[5]? ≠ some ':' then .error "expecting colon between minutes and seconds"
      else
        let second ← decimal ((cs.drop 6).take 2)
        if second > 60 then .error "seconds cannot be greater 60"
        else match cs.drop 8 with
          | '.' :: rest =>
            let digits := rest.takeWhile Char.isDigit
            if digits.isEmpty then
              .error (if rest.isEmpty then "nanoseconds need at least one digit"
                else "need at least one digit after fraction point")
            else
              pure ({ hour, minute, second, fraction := digits.take 9 }, rest.dropWhile Char.isDigit)
          | rest => pure ({ hour, minute, second }, rest)

/-- A day and a time, and what follows them. -/
def dayAndClock (cs : List Char) : Except String (Timestamp × Clock × List Char) := do
  if cs.length < 11 then
    .error "local datetimes are expected to have the format YYYY-MM-DDTHH:MM:SS[.NNNNNNNNN]"
  else
    let date ← day (cs.take 10)
    if !(['T', ' ', 't'].contains (cs[10]?.getD 'T')) then
      .error "datetime separator is expected to be T or a space"
    else
      let (time, rest) ← clock (cs.drop 11)
      pure (date, time, rest)

/-- How many minutes a zone is ahead of the prime meridian. -/
def zone (cs : List Char) : Except String Int :=
  match cs with
  | 'Z' :: rest | 'z' :: rest =>
    if rest.isEmpty then .ok 0 else .error "extra bytes at the end of the timezone"
  | [sign, h₁, h₂, colon, m₁, m₂] => do
    if sign ≠ '+' && sign ≠ '-' then .error "invalid timezone offset character"
    else if colon ≠ ':' then .error "expected a : separator"
    else
      let hours ← decimal [h₁, h₂]
      if hours > 23 then .error "invalid timezone offset hours"
      else
        let minutes ← decimal [m₁, m₂]
        if minutes > 59 then .error "invalid timezone offset minutes"
        else
          let size : Int := 60 * hours + minutes
          pure (if sign = '-' then -size else size)
  | _ => .error "invalid date-time timezone"

/-- A point in time. A sixtieth second is the first one of the next minute. -/
def moment (cs : List Char) : Except String Timestamp := do
  let (date, time, rest) ← dayAndClock cs
  let ahead ← zone rest
  let shown := { date with
    hour := time.hour, minute := time.minute, second := time.second
    nanosecond := time.nanosecond, ahead }
  pure (if time.second < 60 then shown
    else { Timestamp.ofSeconds shown.clockSeconds shown.nanosecond with ahead })

def dayText (t : Timestamp) : String :=
  padded 4 t.year.natAbs ++ "-" ++ padded 2 t.month ++ "-" ++ padded 2 t.day

/-- The text of a day. -/
def localDay (cs : List Char) : Except String String := (day cs).map dayText

/-- The text of a time of no day. -/
def localClock (cs : List Char) : Except String String := do
  let (time, rest) ← clock cs
  if rest.isEmpty then pure time.text else .error "extra characters at the end of a local time"

/-- The text of a day and a time. -/
def localMoment (cs : List Char) : Except String String := do
  let (date, time, rest) ← dayAndClock cs
  if rest.isEmpty then pure (dayText date ++ "T" ++ time.text)
  else .error "extra characters at the end of a local date time"

end Lowering.Configuration.Toml
