import Lowering.Text.Color

/-!
Tables with borders. A column is as wide as its widest cell; colours take no room.
-/

namespace Lowering.Text

inductive Alignment
  | left | right | center
deriving DecidableEq, Repr

structure Table where
  header : Option (List String) := none
  headerAlignment : List Alignment := []
  alignment : List Alignment := []
  rows : List (List String) := []

namespace Table

/-- The wider of two rows of widths, column by column. -/
def widest : List Nat → List Nat → List Nat
  | [], ws => ws
  | ws, [] => ws
  | v :: vs, w :: ws => max v w :: widest vs ws

def widths (t : Table) : List Nat :=
  (t.header.toList ++ t.rows).foldl (fun ws row => widest ws (row.map width)) []

def spaces (n : Nat) : String := String.ofList (List.replicate n ' ')

/-- A cell filled up to the width of its column. -/
def pad (s : String) (w : Nat) (alignment : Alignment) : String :=
  let gap := w - width s
  match alignment with
  | .left => s ++ spaces gap
  | .right => spaces gap ++ s
  | .center => spaces (gap / 2) ++ s ++ spaces (gap - gap / 2)

def border (ws : List Nat) : String :=
  "+" ++ String.join (ws.map fun w => String.ofList (List.replicate (w + 2) '-') ++ "+") ++ "\n"

/-- One cell per column; missing cells are empty and missing alignments left. -/
def cells : List Nat → List String → List Alignment → List String
  | [], _, _ => []
  | w :: ws, row, alignment =>
    (" " ++ pad (row.headD "") w (alignment.headD .left) ++ " |") :: cells ws row.tail alignment.tail

def line (ws : List Nat) (row : List String) (alignment : List Alignment) : String :=
  "|" ++ String.join (cells ws row alignment) ++ "\n"

/-- The lines of a table; a table without columns has none. -/
def lines (t : Table) : List String :=
  let ws := t.widths
  if ws.isEmpty then []
  else
    let head := match t.header with
      | some header => [line ws header t.headerAlignment, border ws]
      | none => []
    [border ws] ++ head ++ t.rows.map (line ws · t.alignment) ++ [border ws]

def render (t : Table) : String := String.join t.lines

end Table
end Lowering.Text
