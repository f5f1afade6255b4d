import Lowering.Timestamp

/-!
Dates among plain scalars: a day, or a day and a time.
-/

namespace Lowering.Yaml
open Timestamp

/-- A day: a year of four digits, a month and a day of it. -/
def day? (cs : List Char) : Option (Timestamp × List Char) := do
  let (year, rest) ← digits? 4 cs
  let rest ← literal? '-' rest
  let (month, rest) ← shortNumber? rest
  let rest ← literal? '-' rest
  let (day, rest) ← shortNumber? rest
  let day ← ofDay? year month day
  some (day, rest)

/-- A day, a day and a time with its zone, or a day and a time after blanks. -/
def timestamp? (cs : List Char) : Option Timestamp :=
  match day? cs with
  | none => none
  | some (day, []) => some day
  | some (day, c :: rest) =>
    if c = 'T' || c = 't' then
      match clock? shortNumber? day rest with
      | some (time, rest) => (zone? rest).map fun ahead => { time with ahead }
      | none => none
    else if c = ' ' then
      match clock? shortNumber? day (rest.dropWhile (· = ' ')) with
      | some (time, []) => some time
      | _ => none
    else none

end Lowering.Yaml
