import Lowering.Yaml.Token

/-!
From characters to tokens. Blocks are found by their indentation; a key without a mark of its own is
only known by the colon behind it, and its marks are then put in before it. So a token is held back
while it could still turn out to be a key, and in any case until the two after it are known: what is
malformed takes the tokens that are held back with it.
-/

namespace Lowering.Yaml

/-- A token that could turn out to be a key. -/
structure Candidate where
  possible : Bool := false
  /-- At the indentation of a block only a key can stand. -/
  required : Bool := false
  /-- Its number among the tokens. -/
  token : Nat := 0
  line : Nat := 0
  column : Nat := 0
  index : Nat := 0
deriving Repr, Inhabited

structure Lexer where
  rest : List Glyph
  tokens : Array Token := #[]
  /-- How many tokens are no longer held back. -/
  taken : Nat := 0
  indent : Int := -1
  outer : List Int := []
  /-- The last candidate of every open flow collection, innermost first, and of the block around
  them. -/
  candidates : List Candidate := [{}]
  /-- The tokens that are held back as candidates, with the depths of their collections. -/
  watched : List (Nat × Nat) := []
  keyAllowed : Bool := true

/-- What is being skipped between two tokens. -/
inductive Skipping
  | blanks
  | comment
  /-- The lines between two comments. -/
  | between

namespace Lexer

/-- How many collections or blocks can be open at once. -/
def maxDepth : Nat := 10000

/-- How far a key and its colon can be apart. -/
def keyLength : Nat := 1024

/-- How far ahead a comment is looked for. -/
def commentReach : Nat := 512

def inFlow (l : Lexer) : Bool := l.candidates.length > 1

def line (l : Lexer) : Nat := lineOf l.rest

def column (l : Lexer) : Nat := columnOf l.rest

def index (l : Lexer) : Nat := (l.rest.head?.map Glyph.index).getD 0

def push (l : Lexer) (t : Token) : Lexer := { l with tokens := l.tokens.push t }

def pushMark (l : Lexer) (kind : Mark) : Lexer := l.push (.mark kind l.line)

/-- Puts a token in before one that is held back. -/
def insert (l : Lexer) (position : Nat) (t : Token) : Lexer :=
  if position < l.taken then l.push t
  else { l with tokens := l.tokens.insertIdxIfInBounds position t }

def advance (l : Lexer) (n : Nat) : Lexer := { l with rest := l.rest.drop n }

/-- Whether the next thing after a line is a comment again. -/
def commentFollows (gs : List Glyph) : Bool :=
  let near := gs.take (commentReach - 1)
  charAt (near.dropWhile fun g => isSpace g.char || g.char = '\n') 0 = '#'

/-- Skips blanks, comments and line breaks. A tab is no blank where a key could start in a block,
but it can stand between two comments. -/
def skip (inFlow : Bool) : Skipping → Bool → List Glyph → Bool × List Glyph
  | _, keyAllowed, [] => (keyAllowed, [])
  | .comment, keyAllowed, g :: rest =>
    if isLineBreak g.char then
      if g.char = '\n' && commentFollows rest then skip inFlow .between keyAllowed rest
      else skip inFlow .blanks (keyAllowed || !inFlow) rest
    else if isEnd g.char then (keyAllowed, g :: rest)
    else skip inFlow .comment keyAllowed rest
  | .between, keyAllowed, g :: rest =>
    skip inFlow (if g.char = '#' then .comment else .between) keyAllowed rest
  | .blanks, keyAllowed, g :: rest =>
    if isLineBreak g.char then skip inFlow .blanks (keyAllowed || !inFlow) rest
    else if g.char = '#' then skip inFlow .comment keyAllowed rest
    else if g.char = ' ' || (g.char = '\t' && (inFlow || !keyAllowed))
        || (g.char = byteOrderMark && g.column = 0) then
      skip inFlow .blanks keyAllowed rest
    else (keyAllowed, g :: rest)

def toNextToken (l : Lexer) : Lexer :=
  let (keyAllowed, rest) := skip l.inFlow .blanks l.keyAllowed l.rest
  { l with keyAllowed, rest }

/-- Skips a comment behind a token. -/
def lineComment (l : Lexer) : Option Lexer :=
  let l := if charAt (blanksDropped (l.rest.take commentReach)) 0 = '#' then
      { l with rest := l.rest.dropWhile fun g => !isBreakOrEnd g.char }
    else l
  if breaksWithin 1 (blanksDropped l.rest) then none else some l

/-- Closes the blocks that are indented further than a column. -/
def unwind (column : Int) (line : Nat) : Int → List Int → Array Token → Int × List Int × Array Token
  | indent, [], tokens => (indent, [], tokens)
  | indent, next :: outer, tokens =>
    if indent > column then unwind column line next outer (tokens.push (.mark .blockEnd line))
    else (indent, next :: outer, tokens)

def closeBlocks (l : Lexer) (column : Int) (line : Nat) : Lexer :=
  if l.inFlow then l
  else
    let (indent, outer, tokens) := unwind column line l.indent l.outer l.tokens
    { l with indent, outer, tokens }

/-- Opens a block when a column is further in than the current one. Its mark goes before a token. -/
def openBlock (l : Lexer) (column position line : Nat) (kind : Mark) : Option Lexer :=
  if l.inFlow || l.indent ≥ column then some l
  else if l.outer.length ≥ maxDepth then none
  else some ({ l with indent := column, outer := l.indent :: l.outer }.insert position (.mark kind line))

def unwatch (l : Lexer) (token : Nat) : Lexer :=
  { l with watched := l.watched.filter fun w => w.1 ≠ token }

/-- Gives up the candidate of this level, which must not be a required one. -/
def dropCandidate (l : Lexer) : Option Lexer :=
  match l.candidates with
  | c :: outer =>
    if !c.possible then some l
    else if c.required then none
    else some ({ l with candidates := { c with possible := false } :: outer }.unwatch c.token)
  | [] => some l

/-- Remembers that the next token could be a key. -/
def saveCandidate (l : Lexer) : Option Lexer :=
  if l.keyAllowed then
    l.dropCandidate.map fun l =>
      let c : Candidate :=
        { possible := true, required := !l.inFlow && l.indent == l.column
          token := l.tokens.size, line := l.line, column := l.column, index := l.index }
      let depth := l.candidates.length - 1
      { l with candidates := c :: l.candidates.drop 1
               watched := (c.token, depth) :: (l.unwatch c.token).watched }
  else some l

/-- Whether a candidate can still be a key: its line is not over, and it is not too far away. One that
cannot is given up, and must not be a required one. -/
def examine (l : Lexer) (depth : Nat) : Option (Bool × Lexer) :=
  let position := l.candidates.length - 1 - depth
  match l.candidates[position]? with
  | none => some (false, l)
  | some c =>
    if !c.possible then some (false, l)
    else if c.line < l.line || c.index + keyLength < l.index then
      if c.required then none
      else some (false, { l with candidates := l.candidates.set position { c with possible := false } })
    else some (true, l)

/-- The end of the stream stands on a line of its own. -/
def endStream (l : Lexer) : Option Lexer :=
  let rest := l.rest.map fun g => if g.column = 0 then g else { g with line := g.line + 1, column := 0 }
  let l := { l with rest }
  let l := l.closeBlocks (-1) l.line
  l.dropCandidate.map fun l => { l with keyAllowed := false }.pushMark .streamEnd

def documentMark (l : Lexer) (kind : Mark) : Option Lexer :=
  let l := l.closeBlocks (-1) l.line
  l.dropCandidate.map fun l => ({ l with keyAllowed := false }.pushMark kind).advance 3

def directive (l : Lexer) : Option Lexer :=
  let l := l.closeBlocks (-1) l.line
  l.dropCandidate.bind fun l =>
    (directive? (l.rest.drop 1)).map fun (content, rest) =>
      { l.push (.directive content l.line) with rest, keyAllowed := false }

def flowStart (l : Lexer) (kind : Mark) : Option Lexer :=
  l.saveCandidate.bind fun l =>
    if l.candidates.length > maxDepth then none
    else
      -- Until a candidate comes, the number is that of the opening mark.
      let candidates := { token := l.tokens.size } :: l.candidates
      some (({ l with candidates, keyAllowed := true }.pushMark kind).advance 1)

def flowEnd (l : Lexer) (kind : Mark) : Option Lexer :=
  l.dropCandidate.map fun l =>
    let l := match l.candidates with
      | c :: outer => if outer.isEmpty then l else { l with candidates := outer }.unwatch c.token
      | [] => l
    ({ l with keyAllowed := false }.pushMark kind).advance 1

def flowEntry (l : Lexer) : Option Lexer :=
  l.dropCandidate.map fun l => ({ l with keyAllowed := true }.pushMark .flowEntry).advance 1

def blockEntry (l : Lexer) : Option Lexer :=
  if !l.inFlow && !l.keyAllowed then none
  else
    (l.openBlock l.column l.tokens.size l.line .blockSequence).bind fun l =>
      l.dropCandidate.map fun l => ({ l with keyAllowed := true }.pushMark .blockEntry).advance 1

def explicitKey (l : Lexer) : Option Lexer :=
  if !l.inFlow && !l.keyAllowed then none
  else
    (l.openBlock l.column l.tokens.size l.line .blockMapping).bind fun l =>
      l.dropCandidate.map fun l => ({ l with keyAllowed := !l.inFlow }.pushMark .key).advance 1

/-- A colon: the value of the candidate before it, or of a key with a mark of its own. -/
def value (l : Lexer) : Option Lexer :=
  match l.examine (l.candidates.length - 1), l.candidates with
  | none, _ | some _, [] => none
  | some (true, l), c :: outer =>
    let l := { l.insert c.token (.mark .key c.line) with
      candidates := { c with possible := false } :: outer }
    (l.openBlock c.column c.token c.line .blockMapping).map fun l =>
      ({ l.unwatch c.token with keyAllowed := false }.pushMark .value).advance 1
  | some (false, l), _ =>
    if !l.inFlow && !l.keyAllowed then none
    else
      (l.openBlock l.column l.tokens.size l.line .blockMapping).map fun l =>
        ({ l with keyAllowed := !l.inFlow }.pushMark .value).advance 1

/-- The signs that a name can stand directly before. -/
def nameEnds : List Char := ['?', ':', ',', ']', '}', '%', '@', '`']

/-- An anchor or an alias: a name that ends at a gap or before certain signs. -/
def name (l : Lexer) (make : String → Nat → Token) : Option Lexer :=
  l.saveCandidate.bind fun l =>
    let (name, rest) := spanChars isNameChar (l.rest.drop 1)
    let next := charAt rest 0
    if name.isEmpty || !(isGap next || nameEnds.contains next) then none
    else some { l.push (make (String.ofList name) l.line) with rest, keyAllowed := false }

def tag (l : Lexer) : Option Lexer :=
  l.saveCandidate.bind fun l =>
    match tagParts? (l.rest.drop 1) with
    | none => none
    | some (handle, suffix, rest) =>
      if isGap (charAt rest 0) then
        some { l.push (.tag handle suffix l.line) with rest, keyAllowed := false }
      else none

def blockScalar (l : Lexer) (literal : Bool) : Option Lexer :=
  l.dropCandidate.bind fun l =>
    (block? literal l.indent (l.rest.drop 1)).map fun (text, rest) =>
      { l.push (.scalar false text l.line) with rest, keyAllowed := true }

def quoted (l : Lexer) (single : Bool) : Option Lexer :=
  l.saveCandidate.bind fun l =>
    (quotedFrom single l.rest.length {} (l.rest.drop 1)).map fun (f, rest) =>
      { l.push (.scalar false f.result l.line) with rest, keyAllowed := false }

/-- A plain scalar. Where it ends with a line, a key can follow it. -/
def plain (l : Lexer) : Option Lexer :=
  l.saveCandidate.bind fun l =>
    match plainFrom l.inFlow (l.indent + 1) true {} l.rest with
    | none => none
    | some (f, rest) =>
      let keyAllowed := !f.breaks.isEmpty
      let l := { l.push (.scalar true f.result l.line) with rest, keyAllowed }
      if breaksWithin 2 rest then none else if keyAllowed then some l else l.lineComment

/-- The signs that mean something at the start of a token. -/
def indicators : List Char :=
  ['-', '?', ':', ',', '[', ']', '{', '}', '#', '&', '*', '!', '|', '>', '\'', '"', '%', '@', '`']

/-- Whether a plain scalar can start with a character, given the next one. -/
def startsPlain (inFlow : Bool) (c next : Char) : Bool :=
  (!isGap c && !indicators.contains c)
    || (c = '-' && !isSpace next)
    || (!inFlow && (c = '?' || c = ':') && !isGap next)

/-- The next token, the lexer being at its first character. A comment can follow it on its line,
except behind the mark of an entry, where it belongs to what the entry holds. -/
def token (l : Lexer) : Option Lexer :=
  let c := charAt l.rest 0
  let next := charAt l.rest 1
  if isEnd c then l.endStream
  else if l.column = 0 && c = '%' then l.directive
  else if startsMark '-' l.rest then l.documentMark .documentStart
  else if startsMark '.' l.rest then l.documentMark .documentEnd
  else if c = '[' then (l.flowStart .flowSequence).bind lineComment
  else if c = '{' then (l.flowStart .flowMapping).bind lineComment
  else if c = ']' then (l.flowEnd .flowSequenceEnd).bind lineComment
  else if c = '}' then (l.flowEnd .flowMappingEnd).bind lineComment
  else if c = ',' then l.flowEntry.bind lineComment
  else if c = '-' && isGap next then l.blockEntry
  else if c = '?' && (l.inFlow || isGap next) then l.explicitKey.bind lineComment
  else if c = ':' && (l.inFlow || isGap next) then l.value.bind lineComment
  else if c = '*' then (l.name .alias).bind lineComment
  else if c = '&' then (l.name .anchor).bind lineComment
  else if c = '!' then l.tag.bind lineComment
  else if c = '|' && !l.inFlow then l.blockScalar true
  else if c = '>' && !l.inFlow then l.blockScalar false
  else if c = '\'' then (l.quoted true).bind lineComment
  else if c = '"' then (l.quoted false).bind lineComment
  else if startsPlain l.inFlow c next then l.plain
  else none

/-- Finds one more token, with the marks that come with it. -/
def step (l : Lexer) : Option Lexer :=
  if breaksWithin 1 l.rest then none
  else if l.tokens.isEmpty then some (l.pushMark .streamStart)
  else
    let before := l.line
    let l := l.toNextToken
    let l := l.closeBlocks l.column before
    if breaksWithin 4 l.rest then none else l.token

/-- Whether the next token need no longer be held back. -/
def settled (l : Lexer) : Option (Bool × Lexer) :=
  if l.taken + 2 < l.tokens.size then
    match l.watched.lookup l.taken with
    | none => some (true, l)
    | some depth => (l.examine depth).map fun (couldBeKey, l) => (!couldBeKey, l)
  else some (false, l)

/-- The tokens up to the end of the stream, or up to where it is malformed. -/
def run : Nat → Lexer → List Token
  | 0, l => l.tokens.toList.take l.taken ++ [.malformed]
  | fuel + 1, l =>
    match l.settled with
    | some (true, l) =>
      let taken := l.taken + 1
      match l.tokens[l.taken]? with
      | some (.mark .streamEnd _) => l.tokens.toList.take taken
      | _ => run fuel { l with taken, watched := l.watched.filter fun w => taken ≤ w.1 }
    | some (false, l) =>
      match l.step with
      | some l => run fuel l
      | none => l.tokens.toList.take l.taken ++ [.malformed]
    | none => l.tokens.toList.take l.taken ++ [.malformed]

end Lexer

/-- The tokens of a stream of bytes, without the one at its start. Every step reads a character or takes
a token, and no character leads to more than a few tokens. -/
def tokens (source : List UInt8) : List Token :=
  let gs := glyphs source
  match Lexer.run (8 * gs.length + 32) { rest := gs } with
  | .mark .streamStart _ :: rest => rest
  | rest => rest

end Lowering.Yaml
