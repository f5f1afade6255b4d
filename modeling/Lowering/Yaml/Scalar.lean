import Lowering.Text.Stray
import Lowering.Yaml.Glyph

/-!
The texts of scalars. Within plain and quoted scalars a single line break becomes a space, and of
several the first is dropped; block scalars keep theirs or fold them.
-/

namespace Lowering.Yaml

/-- A text that is being put together, all parts in reverse. What separates the words is held
back until the next word comes. -/
structure Folding where
  text : List Char := []
  spaces : List Char := []
  breaks : List Char := []

namespace Folding

/-- What stands for a run of line breaks. -/
def folded : List Char → List Char
  | [] => []
  | first :: others =>
    if first = '\n' then if others.isEmpty then [' '] else others else first :: others

/-- Adds what was held back. -/
def settle (f : Folding) : Folding :=
  let between := if f.breaks.isEmpty then f.spaces else (folded f.breaks.reverse).reverse
  { text := between ++ f.text }

def push (f : Folding) (c : Char) : Folding := { f with text := c :: f.text }

/-- Adds a blank or a line break to what is held back. Blanks after a line break are dropped. -/
def hold (f : Folding) (c : Char) : Folding :=
  if isLineBreak c then { f with spaces := [], breaks := c :: f.breaks }
  else if f.breaks.isEmpty then { f with spaces := c :: f.spaces }
  else f

def result (f : Folding) : String := Text.kept (String.ofList f.text.reverse)

end Folding

/-- Whether a character ends a plain scalar, given the next one. -/
def endsPlain (inFlow : Bool) (c next : Char) : Bool :=
  (c = ':' && isGap next)
    || (inFlow && (c = ',' || c = '?' || c = '[' || c = ']' || c = '{' || c = '}'))

/-- A plain scalar. `fresh` says that a word could start here. The rest is missing when a tab
stands where the indentation should be. -/
def plainFrom (inFlow : Bool) (indent : Int) :
    Bool → Folding → List Glyph → Option (Folding × List Glyph)
  | _, f, [] => some (f, [])
  | fresh, f, g :: rest =>
    if isSpace g.char || isLineBreak g.char then
      if g.char = '\t' && !f.breaks.isEmpty && g.column < indent then none
      else plainFrom inFlow indent true (f.hold g.char) rest
    else if isEnd g.char || endsPlain inFlow g.char (charAt rest 0)
        || (fresh && (g.char = '#' || startsDocumentMark (g :: rest)))
        || (!f.breaks.isEmpty && !inFlow && g.column < indent) then
      some (f, g :: rest)
    else plainFrom inFlow indent false (f.settle.push g.char) rest

/-- The character that an escape stands for, when it has no digits. -/
def escaped? : Char → Option Char
  | '0' => some '\x00'
  | 'a' => some '\x07'
  | 'b' => some '\x08'
  | 't' | '\t' => some '\t'
  | 'n' => some '\n'
  | 'v' => some '\x0b'
  | 'f' => some '\x0c'
  | 'r' => some '\r'
  | 'e' => some '\x1b'
  | ' ' => some ' '
  | '"' => some '"'
  | '\'' => some '\''
  | '\\' => some '\\'
  | 'N' => some (Char.ofNat 0x85)
  | '_' => some (Char.ofNat 0xa0)
  | 'L' => some (Char.ofNat 0x2028)
  | 'P' => some (Char.ofNat 0x2029)
  | _ => none

/-- How many digits follow an escape that has digits. -/
def escapeDigits? : Char → Option Nat
  | 'x' => some 2
  | 'u' => some 4
  | 'U' => some 8
  | _ => none

def hexDigit? (c : Char) : Option Nat :=
  if '0' ≤ c && c ≤ '9' then some (c.toNat - 48)
  else if 'a' ≤ c && c ≤ 'f' then some (c.toNat - 87)
  else if 'A' ≤ c && c ≤ 'F' then some (c.toNat - 55)
  else none

def hexNumber? : Nat → List Char → Option Nat
  | n, [] => some n
  | n, c :: rest =>
    match hexDigit? c with
    | some d => hexNumber? (16 * n + d) rest
    | none => none

/-- The character with a number, if there is one. -/
def codePoint? (n : Nat) : Option Char :=
  if n < 0xd800 || (0xdfff < n && n < 0x110000) then some (Char.ofNat n) else none

/-- A quoted scalar after its opening quote. An escaped line break is dropped with the blanks
around it. -/
def quotedFrom (single : Bool) : Nat → Folding → List Glyph → Option (Folding × List Glyph)
  | 0, _, _ => none
  | _ + 1, _, [] => none
  | fuel + 1, f, g :: rest =>
    let c := g.char
    if isEnd c || startsDocumentMark (g :: rest) then none
    else if isSpace c || isLineBreak c then quotedFrom single fuel (f.hold c) rest
    else if single then
      if c = '\'' then
        if charAt rest 0 = '\'' then quotedFrom single fuel (f.settle.push '\'') (rest.drop 1)
        else some (f.settle, rest)
      else quotedFrom single fuel (f.settle.push c) rest
    else if c = '"' then some (f.settle, rest)
    else if c = '\\' then
      let next := charAt rest 0
      if isLineBreak next then
        -- The blanks that follow belong to the escape, and further line breaks stand for themselves.
        let (gap, rest) := spanChars (fun c => isSpace c || isLineBreak c) (rest.drop 1)
        quotedFrom single fuel ((gap.filter isLineBreak).foldl Folding.push f.settle) rest
      else match escaped? next, escapeDigits? next with
        | some c, _ => quotedFrom single fuel (f.settle.push c) (rest.drop 1)
        | none, some n =>
          match (hexNumber? 0 (((rest.drop 1).take n).map Glyph.char)).bind codePoint? with
          | some c => quotedFrom single fuel (f.settle.push c) (rest.drop (n + 1))
          | none => none
        | none, none => none
    else quotedFrom single fuel (f.settle.push c) rest

/-- What becomes of the line breaks at the end of a block scalar. -/
inductive Chomping
  | strip
  | clip
  | keep
deriving DecidableEq, Repr

/-- The indicators in the head of a block scalar, in either order: what to do with the line breaks
at the end, and how far the lines are indented. -/
def blockHead? (cs : List Char) : Option (Chomping × Nat × Nat) :=
  let chomping? : Char → Option Chomping := fun c =>
    if c = '+' then some .keep else if c = '-' then some .strip else none
  let digit? : Char → Option Nat := fun c => if c.isDigit then some (c.toNat - 48) else none
  let first := cs.headD endMark
  let second := (cs.drop 1).headD endMark
  match chomping? first, digit? first with
  | some chomping, _ =>
    match digit? second with
    | some 0 => none
    | some n => some (chomping, n, 2)
    | none => some (chomping, 0, 1)
  | none, some 0 => none
  | none, some n =>
    match chomping? second with
    | some chomping => some (chomping, n, 2)
    | none => some (.clip, n, 1)
  | none, none => some (.clip, 0, 0)

/-- The indentation and the empty lines before a line of a block scalar: the line breaks, the
widest indentation, and what follows. `indent` is zero while it is not known. -/
def blockGap (indent : Nat) :
    List Char → Nat → List Glyph → Option (List Char × Nat × List Glyph)
  | breaks, widest, [] => some (breaks.reverse, widest, [])
  | breaks, widest, g :: rest =>
    let inside := indent = 0 || g.column < indent
    if inside && g.char = ' ' then blockGap indent breaks (max widest (g.column + 1)) rest
    else if inside && g.char = '\t' then none
    else if isLineBreak g.char then blockGap indent (g.char :: breaks) (max widest g.column) rest
    else some (breaks.reverse, max widest g.column, g :: rest)

/-- The lines of a block scalar: the text so far in reverse, whether the last line started with a
blank, its line break, and the empty lines after it. -/
def blockLines (literal : Bool) (indent : Nat) :
    Nat → List Char → Bool → List Char → List Char → List Glyph →
      Option (List Char × List Char × List Char × List Glyph)
  | 0, _, _, _, _, _ => none
  | fuel + 1, text, indented, lastBreak, empties, gs =>
    if columnOf gs ≠ indent || isEnd (charAt gs 0) then some (text, lastBreak, empties, gs)
    else
      let startsBlank := isSpace (charAt gs 0)
      let joint :=
        if !literal && !indented && !startsBlank && lastBreak.head? == some '\n' then
          if empties.isEmpty then [' '] else []
        else lastBreak
      let (line, rest) := spanChars (fun c => !isBreakOrEnd c) gs
      let text := line.reverse ++ (empties.reverse ++ (joint.reverse ++ text))
      let (lastBreak, rest) := match rest with
        | g :: after => if isLineBreak g.char then ([g.char], after) else ([], g :: after)
        | [] => ([], [])
      match blockGap indent [] 0 rest with
      | none => none
      | some (empties, _, rest) => blockLines literal indent fuel text startsBlank lastBreak empties rest

/-- A block scalar after its indicator, inside a block that is indented by `parent`. -/
def block? (literal : Bool) (parent : Int) (gs : List Glyph) : Option (String × List Glyph) :=
  match blockHead? ((gs.take 2).map Glyph.char) with
  | none => none
  | some (chomping, increment, used) =>
    let rest := (gs.drop used).dropWhile fun g => isSpace g.char
    let rest := if charAt rest 0 = '#' then rest.dropWhile fun g => !isBreakOrEnd g.char else rest
    if !isBreakOrEnd (charAt rest 0) then none
    else
      let rest := if isLineBreak (charAt rest 0) then rest.drop 1 else rest
      let declared := if increment = 0 then 0 else (max parent 0).toNat + increment
      match blockGap declared [] 0 rest with
      | none => none
      | some (empties, widest, rest) =>
        let indent := if declared = 0 then max widest (max (parent + 1).toNat 1) else declared
        match blockLines literal indent (rest.length + 1) [] false [] empties rest with
        | none => none
        | some (text, lastBreak, empties, rest) =>
          let ending := match chomping with
            | .strip => []
            | .clip => lastBreak
            | .keep => lastBreak ++ empties
          some (Text.kept (String.ofList (text.reverse ++ ending)), rest)

end Lowering.Yaml
