import Lowering.Text.Stray
import Lowering.Yaml.Scalar

/-!
Tags and directives as they are written. A tag is a handle and a suffix; a directive can say what a
handle stands for.
-/

namespace Lowering.Yaml

def isNameChar (c : Char) : Bool := c.isAlphanum || c = '_' || c = '-'

/-- The signs in a tag. -/
def tagSigns : List Char :=
  [';', '/', '?', ':', '@', '&', '=', '+', '$', '.', ',', '!', '~', '*', '\'', '(', ')', '[', ']']

def isTagChar (c : Char) : Bool := isNameChar c || tagSigns.contains c

/-- The characters of a tag, in which bytes can be written as numbers. `pending` bytes are missing
from a character that was begun so. -/
def uri? : Nat → List UInt8 → List Glyph → Option (List UInt8 × List Glyph)
  | _, done, [] => some (done.reverse, [])
  | pending, done, g :: rest =>
    if g.char = '%' then
      match rest with
      | a :: b :: after =>
        match hexDigit? a.char, hexDigit? b.char with
        | some high, some low =>
          let octet := UInt8.ofNat (16 * high + low)
          if pending = 0 then
            match width? octet with
            | some width => uri? (width - 1) (octet :: done) after
            | none => none
          else if 0x80 ≤ octet && octet < 0xc0 then uri? (pending - 1) (octet :: done) after
          else none
        | _, _ => none
      | _ => none
    else if pending > 0 then none
    else if isTagChar g.char then uri? 0 (UInt8.ofNat g.char.toNat :: done) rest
    else some (done.reverse, g :: rest)

/-- The rest of a tag, which must not be empty. -/
def suffix? (gs : List Glyph) : Option (String × List Glyph) :=
  match uri? 0 [] gs with
  | some (bytes, rest) => if bytes.isEmpty then none else some (Text.ofBytes bytes, rest)
  | none => none

/-- A tag after its exclamation mark: a handle and a suffix. The handle of a tag that is written out
in full is empty. -/
def tagParts? (gs : List Glyph) : Option (String × String × List Glyph) :=
  if charAt gs 0 = '<' then
    match suffix? (gs.drop 1) with
    | some (uri, rest) => if charAt rest 0 = '>' then some ("", uri, rest.drop 1) else none
    | none => none
  else
    let (name, rest) := spanChars isNameChar gs
    if charAt rest 0 = '!' then
      (suffix? (rest.drop 1)).map fun (suffix, rest) =>
        ("!" ++ String.ofList name ++ "!", suffix, rest)
    else
      match uri? 0 [] rest with
      | some (bytes, rest) =>
        let suffix := String.ofList name ++ Text.ofBytes bytes
        some (if suffix.isEmpty then ("", "!", rest) else ("!", suffix, rest))
      | none => none

/-- The handles that need no directive, and what they stand for. -/
def standardHandles : List (String × String) := [("!", "!"), ("!!", "tag:yaml.org,2002:")]

/-- The short form of the tags that the format itself defines. -/
def shortTag (tag : String) : String :=
  match tag.dropPrefix? "tag:yaml.org,2002:" with
  | some name => "!!" ++ name.toString
  | none => tag

/-- A tag in short form, if its handle is known. -/
def tagOf? (handles : List (String × String)) (handle suffix : String) : Option String :=
  if handle == "" then some (shortTag suffix)
  else (handles.lookup handle).map fun expansion => shortTag (expansion ++ suffix)

/-- A directive: the version of the format, or what a handle stands for. -/
inductive Directive
  | version (major minor : Nat)
  | handle (name expansion : String)
deriving DecidableEq, Repr

def blanksDropped (gs : List Glyph) : List Glyph := gs.dropWhile fun g => isSpace g.char

/-- A part of a version: one or two digits. -/
def versionPart? (gs : List Glyph) : Option (Nat × List Glyph) :=
  let (digits, rest) := spanChars Char.isDigit gs
  if digits.isEmpty || digits.length > 2 then none
  else some (digits.foldl (fun n c => 10 * n + (c.toNat - 48)) 0, rest)

def versionDirective? (gs : List Glyph) : Option (Directive × List Glyph) :=
  match versionPart? (blanksDropped gs) with
  | some (major, rest) =>
    if charAt rest 0 = '.' then
      (versionPart? (rest.drop 1)).map fun (minor, rest) => (.version major minor, rest)
    else none
  | none => none

/-- A handle is an exclamation mark, or two with a name between them. -/
def handle? (gs : List Glyph) : Option (String × List Glyph) :=
  if charAt gs 0 ≠ '!' then none
  else
    let (name, rest) := spanChars isNameChar (gs.drop 1)
    if charAt rest 0 = '!' then some ("!" ++ String.ofList name ++ "!", rest.drop 1)
    else if name.isEmpty then some ("!", rest)
    else none

def handleDirective? (gs : List Glyph) : Option (Directive × List Glyph) :=
  match handle? (blanksDropped gs) with
  | some (name, rest) =>
    if !isSpace (charAt rest 0) then none
    else match suffix? (blanksDropped rest) with
      | some (expansion, rest) =>
        if isGap (charAt rest 0) then some (.handle name expansion, rest) else none
      | none => none
  | none => none

/-- A directive after its sign, with the rest of its line, which can only be a comment. -/
def directive? (gs : List Glyph) : Option (Directive × List Glyph) :=
  let (name, rest) := spanChars isNameChar gs
  let found :=
    if !isGap (charAt rest 0) then none
    else if name == "YAML".toList then versionDirective? rest
    else if name == "TAG".toList then handleDirective? rest
    else none
  match found with
  | none => none
  | some (directive, rest) =>
    let rest := blanksDropped rest
    let rest := if charAt rest 0 = '#' then rest.dropWhile fun g => !isBreakOrEnd g.char else rest
    if isLineBreak (charAt rest 0) then some (directive, rest.drop 1)
    else if isEnd (charAt rest 0) then some (directive, rest)
    else none

end Lowering.Yaml
