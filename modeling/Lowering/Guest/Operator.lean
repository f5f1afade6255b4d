/-!
The operators that an instruction names by number: arithmetic, with an in-place form of each,
and comparison.
-/

namespace Lowering.Guest

/-- An arithmetic operator. -/
inductive Arithmetic
  | add | bitAnd | floorDivide | leftShift | multiply | remainder
  | bitOr | power | rightShift | subtract | trueDivide | bitXor
deriving DecidableEq, Repr

namespace Arithmetic

def code : Arithmetic → Int64
  | add => 0
  | bitAnd => 1
  | floorDivide => 2
  | leftShift => 3
  | multiply => 5
  | remainder => 6
  | bitOr => 7
  | power => 8
  | rightShift => 9
  | subtract => 10
  | trueDivide => 11
  | bitXor => 12

def symbol : Arithmetic → String
  | add => "+"
  | bitAnd => "&"
  | floorDivide => "//"
  | leftShift => "<<"
  | multiply => "*"
  | remainder => "%"
  | bitOr => "|"
  | power => "**"
  | rightShift => ">>"
  | subtract => "-"
  | trueDivide => "/"
  | bitXor => "^"

def all : List Arithmetic :=
  [add, bitAnd, floorDivide, leftShift, multiply, remainder, bitOr, power, rightShift, subtract,
    trueDivide, bitXor]

/-- The operator with the given number. -/
def ofCode? (n : Int64) : Option Arithmetic := all.find? (·.code == n)

/-- In-place forms are numbered from here. -/
def inPlace : Int64 := 13

/-- The operator of an operand, whether plain or in place. -/
def ofOperand? (n : Int64) : Option Arithmetic :=
  ofCode? (if n.toInt ≥ 13 then n - inPlace else n)

/-- The symbol of an operand, with `=` for the in-place form and nothing for unknown numbers. -/
def operandText (n : Int64) : String :=
  match ofOperand? n with
  | none => ""
  | some op => if n.toInt ≥ 13 then op.symbol ++ "=" else op.symbol

end Arithmetic

/-- A comparison. -/
inductive Comparison
  | less | lessOrEqual | equal | notEqual | greater | greaterOrEqual
deriving DecidableEq, Repr

namespace Comparison

def code : Comparison → Int64
  | less => 0
  | lessOrEqual => 1
  | equal => 2
  | notEqual => 3
  | greater => 4
  | greaterOrEqual => 5

def symbol : Comparison → String
  | less => "<"
  | lessOrEqual => "<="
  | equal => "=="
  | notEqual => "!="
  | greater => ">"
  | greaterOrEqual => ">="

def all : List Comparison := [less, lessOrEqual, equal, notEqual, greater, greaterOrEqual]

def ofCode? (n : Int64) : Option Comparison := all.find? (·.code == n)

def operandText (n : Int64) : String := ((ofCode? n).map symbol).getD ""

end Comparison
end Lowering.Guest
