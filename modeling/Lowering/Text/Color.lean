import Lowering.Text.Stray

/-!
Colours on a terminal: escape sequences around a text, and a text without them.
-/

namespace Lowering.Text

/-- A colour, by the attributes that switch it on and those that switch it off. -/
structure Color where
  on : String
  off : String

namespace Color

def yellow : Color := ⟨"33", "0"⟩
def magenta : Color := ⟨"35", "0"⟩
def cyan : Color := ⟨"36", "0"⟩
def bold : Color := ⟨"1", "22"⟩

/-- A strong colour; switching it off also ends the strength. -/
def strong (code : String) : Color := ⟨code ++ ";1", "0;22"⟩

def escape (attributes : String) : String := "\x1b[" ++ attributes ++ "m"

def apply (c : Color) (s : String) : String := escape c.on ++ s ++ escape c.off

end Color

/-- Paints a text when colours are wanted and there is something to paint. -/
def paint (colored : Bool) (color : Option Color) (s : String) : String :=
  match color with
  | some color => if colored && s != "" then color.apply s else s
  | none => s

def isAttribute (c : Char) : Bool := ('0' ≤ c && c ≤ '9') || c = ';'

/-- The length of the escape sequence that a text starts with. -/
def escapeLength? : List Char → Option Nat
  | '\x1b' :: '[' :: rest =>
    match rest.dropWhile isAttribute with
    | 'm' :: _ => some ((rest.takeWhile isAttribute).length + 3)
    | _ => none
  | _ => none

/-- Drops the escape sequences, after skipping some characters. -/
def stripFrom (skip : Nat) : List Char → List Char
  | [] => []
  | c :: rest =>
    match skip with
    | skip + 1 => stripFrom skip rest
    | 0 =>
      match escapeLength? (c :: rest) with
      | some n => stripFrom (n - 1) rest
      | none => c :: stripFrom 0 rest

/-- A text without its escape sequences. -/
def strip (cs : List Char) : List Char := stripFrom 0 cs

/-- How many characters of a text show. Stray bytes between which an escape sequence stood come together. -/
def width (s : String) : Nat := (runes (String.ofList (strip s.toList))).length

end Lowering.Text
