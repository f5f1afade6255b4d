import Lowering.Decimal.Integer
import Lowering.Text.Blank
import Lowering.Text.Quoted

/-!
Guest versions such as 3.11, their order, and the grammar in which they are written. A version
may carry a patch number, a pre-release part and a build part; they are checked and dropped.
-/

namespace Lowering

structure Version where
  major : Int64
  minor : Int64
deriving DecidableEq, Repr, Inhabited

namespace Version

/-- The version 0.0, which stands for an absent one. -/
def zero : Version := ⟨0, 0⟩

/-- The oldest version that is accepted. -/
def minimum : Version := ⟨3, 9⟩

/-- The first version with an exception table and a single exception slot. -/
def exceptionTable : Version := ⟨3, 11⟩

/-- The newest version with rules of its own. Later ones follow the same rules. -/
def latest : Version := ⟨3, 12⟩

/-- Versions are ordered by their major number, then by their minor one. -/
def compare (v w : Version) : Ordering :=
  match Ord.compare v.major.toInt w.major.toInt with
  | .eq => Ord.compare v.minor.toInt w.minor.toInt
  | unequal => unequal

def atLeast (v w : Version) : Bool := v.compare w != .lt

def isZero (v : Version) : Bool := v.major == 0 && v.minor == 0

def supported (v : Version) : Bool := v.atLeast minimum

def text (v : Version) : String := s!"{v.major.toInt}.{v.minor.toInt}"

/-- Why a text is not a version. -/
inductive Fault
  | malformed (text : String)
  | incomplete (text : String)
  | unreadable (text part : String) (fault : Decimal.IntegerFault)
deriving DecidableEq, Repr

def Fault.message : Fault → String
  | .malformed text => "invalid guest version " ++ Text.quote text
  | .incomplete text => "invalid guest version " ++ Text.quote text ++ ": missing minor version"
  | .unreadable text part fault =>
    "invalid guest version " ++ Text.quote text ++ ": strconv.Atoi: parsing " ++ Text.quote part
      ++ ": " ++ fault.text

def isDigit (c : Char) : Bool := '0' ≤ c && c ≤ '9'

/-- A number without leading zeros, and what follows it. -/
def number? (cs : List Char) : Option (List Char × List Char) :=
  match cs.takeWhile isDigit with
  | [] => none
  | '0' :: _ :: _ => none
  | digits => some (digits, cs.dropWhile isDigit)

def isIdentifierChar (c : Char) : Bool := c.isAlphanum || c = '-'

/-- The parts of a text between its dots. -/
def dotted : List Char → List (List Char)
  | [] => [[]]
  | c :: rest =>
    match dotted rest with
    | [] => [[c]]
    | part :: parts => if c = '.' then [] :: part :: parts else (c :: part) :: parts

def isIdentifier (part : List Char) : Bool := !part.isEmpty && part.all isIdentifierChar

/-- Only digits, more than one, and the first is zero. -/
def hasLeadingZero (part : List Char) : Bool :=
  part.all isDigit && part.length > 1 && part.head? == some '0'

def isPreRelease (cs : List Char) : Bool :=
  (dotted cs).all fun part => isIdentifier part && !hasLeadingZero part

def isBuild (cs : List Char) : Bool := (dotted cs).all isIdentifier

/-- What may follow the patch number. -/
def isSuffix (cs : List Char) : Bool :=
  let release := cs.takeWhile (· != '+')
  let build := cs.dropWhile (· != '+')
  (match release with
    | [] => true
    | '-' :: rest => isPreRelease rest
    | _ => false)
  && (match build with
    | [] => true
    | _ :: rest => isBuild rest)

/-- The digits of the two numbers that count; an absent second number is zero. -/
def numbers? (cs : List Char) : Option (List Char × List Char) :=
  match number? cs with
  | none => none
  | some (major, []) => some (major, ['0'])
  | some (major, '.' :: rest) =>
    match number? rest with
    | none => none
    | some (minor, []) => some (major, minor)
    | some (minor, '.' :: rest) =>
      match number? rest with
      | none => none
      | some (_, suffix) => if isSuffix suffix then some (major, minor) else none
    | some _ => none
  | some _ => none

/-- What reading a version asks of a library for semantic versions, which are written with a `v` in
front: whether a text is one, and its first two numbers behind the `v`. -/
structure Semver where
  isValid : List Char → Bool
  majorMinor : List Char → List Char

/-- The library that is used. -/
def semver : Semver where
  isValid
    | 'v' :: cs => (numbers? cs).isSome
    | _ => false
  majorMinor
    | 'v' :: cs =>
      match numbers? cs with
      | some (major, minor) => 'v' :: (major ++ '.' :: minor)
      | none => []
    | _ => []

/-- A text with a `v` in front. -/
def marked : List Char → List Char
  | 'v' :: rest => 'v' :: rest
  | cs => 'v' :: cs

/-- A text without a `v` in front. -/
def unmarked : List Char → List Char
  | 'v' :: rest => rest
  | cs => cs

/-- What stands before and after the first dot. -/
def cut? (cs : List Char) : Option (List Char × List Char) :=
  match cs.dropWhile (· ≠ '.') with
  | [] => none
  | _ :: after => some (cs.takeWhile (· ≠ '.'), after)

/-- Reads `3.11`, `v3.11` or `3.11.4`, with blanks around it. -/
def parseWith (semver : Semver) (text : String) : Except Fault Version :=
  let trimmed := Text.trimList text.toList
  if !semver.isValid (marked trimmed) then .error (.malformed (String.ofList trimmed))
  else
    match cut? (unmarked (semver.majorMinor (marked trimmed))) with
    | none => .error (.incomplete (String.ofList trimmed))
    | some (major, minor) =>
      let number (digits : List Char) : Except Fault Int64 :=
        (Decimal.decimalInteger digits).mapError
          (.unreadable (String.ofList trimmed) (String.ofList digits))
      match number major with
      | .error fault => .error fault
      | .ok major =>
        match number minor with
        | .error fault => .error fault
        | .ok minor => .ok ⟨major, minor⟩

/-- Reads a version with the library that is used. -/
def parse (text : String) : Except Fault Version := parseWith semver text

end Version
end Lowering
