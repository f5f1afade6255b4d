import Lowering.Decimal.Integer
import Lowering.Decimal.Nearest
import Lowering.Text.Quoted

/-!
Numbers of TOML. Low lines may stand between digits. A failure is the text that tells it.
-/

namespace Lowering.Configuration.Toml

def startsWithLowLine : String := "number cannot start with underscore"

def endsWithLowLine : String := "number cannot end with underscore"

def doubleLowLine : String := "number must have at least one digit between underscores"

/-- Whether two low lines stand side by side. -/
def hasDoubleLowLine : List Char → Bool
  | '_' :: '_' :: _ => true
  | _ :: rest => hasDoubleLowLine rest
  | [] => false

/-- An integer without its low lines. -/
def plainInteger (cs : List Char) : Except String (List Char) :=
  let unsigned := match cs with
    | '+' :: rest | '-' :: rest => rest
    | rest => rest
  if unsigned.isEmpty then .ok cs
  else if unsigned.head? = some '_' then .error startsWithLowLine
  else if unsigned.getLast? = some '_' then .error endsWithLowLine
  else if hasDoubleLowLine cs then .error doubleLowLine
  else .ok (cs.filter (· ≠ '_'))

/-- A word from digits in a base, with an optional sign. -/
def integerIn (base : Nat) (kind : String) (cs : List Char) : Except String Int64 :=
  let failed (fault : Decimal.IntegerFault) : Except String Int64 :=
    .error ("couldn't parse " ++ kind ++ " number: strconv.ParseInt: parsing "
      ++ Text.quote (String.ofList cs) ++ ": " ++ fault.text)
  let (negative, digits) := match cs with
    | '-' :: rest => (true, rest)
    | '+' :: rest => (false, rest)
    | rest => (false, rest)
  match if digits.isEmpty then none else Decimal.numberIn? base 0 digits with
  | none => failed .form
  | some n =>
    match word? (if negative then -(n : Int) else n) with
    | some word => .ok word
    | none => failed .range

/-- An integer in base ten, which does not start with a zero, or in another base. -/
def integer (cs : List Char) : Except String Int64 :=
  match cs with
  | '0' :: 'x' :: d :: ds => do integerIn 16 "hexadecimal" (← plainInteger (d :: ds))
  | '0' :: 'b' :: d :: ds => do integerIn 2 "binary" (← plainInteger (d :: ds))
  | '0' :: 'o' :: d :: ds => do integerIn 8 "octal" (← plainInteger (d :: ds))
  | cs => do
    let plain ← plainInteger cs
    let unsigned := match plain with
      | '+' :: rest | '-' :: rest => rest
      | rest => rest
    if unsigned.length > 1 && unsigned.head? = some '0' then
      .error "leading zero not allowed on decimal number"
    else integerIn 10 "decimal" plain

/-- A float without its low lines. `digit` says whether a digit came since the last low line or
sign. -/
def plainFloat (digit : Bool) (before : Char) : List Char → Except String (List Char)
  | [] => .ok []
  | c :: rest =>
    if c = '_' then
      if !digit then .error doubleLowLine
      else if rest.head? = some 'e' || rest.head? = some 'E' then
        .error "cannot have underscore before exponent"
      else plainFloat false c rest
    else if c = '+' || c = '-' then (plainFloat false c rest).map (c :: ·)
    else if c = 'e' || c = 'E' then
      if rest.head? = some '_' then .error "cannot have underscore after exponent"
      else (plainFloat digit c rest).map (c :: ·)
    else if c = '.' then
      if rest.head? = some '_' then .error "cannot have underscore after decimal point"
      else if before = '_' then .error "cannot have underscore before decimal point"
      else (plainFloat digit c rest).map (c :: ·)
    else (plainFloat true c rest).map (c :: ·)

/-- Demands that there is at most one point, and that it stands between digits. -/
def checkPoints (seen : Bool) (before : Char) : List Char → Except String Unit
  | [] => .ok ()
  | c :: rest =>
    if c ≠ '.' then checkPoints seen c rest
    else if seen then .error "float can have at most one decimal point"
    else if !before.isDigit then .error "float decimal point must be preceded by a digit"
    else if !(rest.headD ' ').isDigit then .error "float decimal point must be followed by a digit"
    else checkPoints true c rest

/-- Whether characters are a number, of whatever size. -/
def isNumber (cs : List Char) : Bool :=
  let unsigned := match cs with
    | '+' :: rest | '-' :: rest => rest
    | rest => rest
  let (fraction, rest) := match unsigned.dropWhile Char.isDigit with
    | '.' :: rest => (rest.takeWhile Char.isDigit, rest.dropWhile Char.isDigit)
    | rest => ([], rest)
  (!(unsigned.takeWhile Char.isDigit).isEmpty || !fraction.isEmpty)
    && (Decimal.exponent? rest).isSome

def float (cs : List Char) : Except String Float := do
  if cs.head? = some '_' then .error startsWithLowLine
  else if cs.getLast? = some '_' then .error endsWithLowLine
  else
    let plain ← if cs.contains '_' then plainFloat false ' ' cs else pure cs
    if plain.head? = some '.' then .error "float cannot start with a dot"
    else if plain.getLast? = some '.' then .error "float cannot end with a dot"
    else
      checkPoints false ' ' plain
      let (negative, unsigned) := match plain with
        | '-' :: rest => (true, rest)
        | '+' :: rest => (false, rest)
        | rest => (false, rest)
      if unsigned.head? = some '0' && (unsigned.tail.headD ' ').isDigit then
        .error "float integer part cannot have leading zeroes"
      else if unsigned = ['n', 'a', 'n'] then pure (0.0 / 0.0)
      else if unsigned = ['i', 'n', 'f'] then pure (if negative then -1.0 / 0.0 else 1.0 / 0.0)
      else match Decimal.number? plain with
        | some x => pure x
        | none =>
          let cause := if isNumber plain then Decimal.IntegerFault.range else .form
          .error ("unable to parse float: strconv.ParseFloat: parsing "
            ++ Text.quote (String.ofList plain) ++ ": " ++ cause.text)

end Lowering.Configuration.Toml
