import Lowering.Yaml.Lexer
import Lowering.Yaml.Meaning

/-!
The nodes of a YAML document. Every node has the number of its line, and all but the aliases a tag.
An alias tells the number of the node that it stands for, which can be one around it. Only the first
document of a stream is read, and the stream no further than that takes.
-/

namespace Lowering.Yaml

inductive Node
  | scalar (line : Nat) (tag : String) (text : String)
  | sequence (line : Nat) (tag : String) (items : List Node)
  | mapping (line : Nat) (tag : String) (entries : List (Node × Node))
  /-- The aliases are numbered, and so are the nodes with anchors, which are their targets. -/
  | alias (line : Nat) (name : String) (number target : Nat)
deriving Inhabited, Repr

namespace Node

def line : Node → Nat
  | .scalar line _ _ | .sequence line _ _ | .mapping line _ _ | .alias line _ _ _ => line

def tag : Node → String
  | .scalar _ tag _ | .sequence _ tag _ | .mapping _ tag _ => tag
  | .alias .. => ""

def isNull (n : Node) : Bool := n.tag == "!!null"

end Node

/-- What the nodes so far have declared. -/
structure Declared where
  /-- What the handles of tags stand for. -/
  handles : List (String × String) := standardHandles
  /-- The anchors with the numbers of their nodes, the last first. -/
  anchors : List (String × Nat) := []
  /-- The nodes with anchors. One that is still being read is not there yet. -/
  nodes : Array Node := #[]
  /-- How many aliases there are. -/
  aliases : Nat := 0
  /-- How many tokens there are. No node is nested deeper. -/
  size : Nat := 0

/-- What stands before a node. -/
structure Properties where
  anchor : Option String := none
  tag : Option String := none
  line : Nat

/-- Anchor and tag of a node, in either order. -/
def properties? (handles : List (String × String)) (ts : List Token) :
    Option (Properties × List Token) :=
  let line := ((ts.head?.map Token.line).getD 0) + 1
  match ts with
  | .anchor name _ :: .tag handle suffix _ :: rest | .tag handle suffix _ :: .anchor name _ :: rest =>
    (tagOf? handles handle suffix).map fun tag => (⟨some name, some tag, line⟩, rest)
  | .anchor name _ :: rest => some (⟨some name, none, line⟩, rest)
  | .tag handle suffix _ :: rest =>
    (tagOf? handles handle suffix).map fun tag => (⟨none, some tag, line⟩, rest)
  | rest => some (⟨none, none, line⟩, rest)

/-- The tag that a node gets: its own, unless that says nothing, or the one of its kind. -/
def Properties.tagOr (p : Properties) (default : String) : String :=
  match p.tag with
  | some tag => if tag == "!" then default else tag
  | none => default

/-- The tag of a scalar without one of its own. -/
def scalarTag (plain : Bool) (text : String) : String :=
  if !plain then "!!str"
  else if text == "<<" then "!!merge"
  else (meaning true text).tag

def emptyNode (line : Nat) : Node := .scalar line "!!null" ""

/-- Declares the anchor of a node that starts here. What is inside it can refer to it. -/
def Properties.declare (p : Properties) (d : Declared) : Declared :=
  match p.anchor with
  | some name => { d with anchors := (name, d.nodes.size) :: d.anchors, nodes := d.nodes.push default }
  | none => d

/-- Puts in the node itself. `number` is the one that it was declared with. -/
def Properties.settle (p : Properties) (number : Nat) (d : Declared) (node : Node) : Declared :=
  match p.anchor with
  | some _ => { d with nodes := d.nodes.setIfInBounds number node }
  | none => d

/-- The result of reading one node. -/
abbrev Parsed (α : Type) := Option (α × Declared × List Token)

def isMark (kinds : List Mark) : List Token → Bool
  | .mark kind _ :: _ => kinds.contains kind
  | _ => false

/-- A node that has an anchor or a tag and nothing else. -/
def emptied (p : Properties) (declared : Declared) (ts : List Token) : Parsed Node :=
  if (p.anchor.isNone && p.tag.isNone) || ts.head? == some .malformed then none
  else
    let node := Node.scalar p.line (p.tagOr "!!null") ""
    some (node, p.settle declared.nodes.size (p.declare declared) node, ts)

mutual

/-- Reads a node. `inBlock` admits blocks, and `indentless` a sequence without an indentation of its
own, which a key or its value can be. -/
def node? : Nat → Bool → Bool → Declared → List Token → Parsed Node
  | 0, _, _, _, _ => none
  | fuel + 1, inBlock, indentless, declared, ts =>
    match ts with
    | .alias name line :: rest =>
      (declared.anchors.lookup name).map fun target =>
        (.alias (line + 1) name declared.aliases target,
          { declared with aliases := declared.aliases + 1 }, rest)
    | ts =>
      match properties? declared.handles ts with
      | none => none
      | some (p, ts) =>
        let opened := p.declare declared
        let finish {α : Type} (make : α → Node) : Parsed α → Parsed Node
          | none => none
          | some (content, after, rest) =>
            let node := make content
            some (node, p.settle declared.nodes.size after node, rest)
        match ts with
        | .scalar plain text _ :: rest =>
          finish (.scalar p.line (p.tagOr (scalarTag plain text))) (some (text, opened, rest))
        | .mark .flowSequence _ :: rest =>
          finish (.sequence p.line (p.tagOr "!!seq")) (flowItems? fuel true opened rest)
        | .mark .flowMapping _ :: rest =>
          finish (.mapping p.line (p.tagOr "!!map")) (flowEntries? fuel true opened rest)
        | .mark kind _ :: rest =>
          if indentless && kind = .blockEntry then
            finish (.sequence p.line (p.tagOr "!!seq")) (looseItems? fuel opened ts)
          else if inBlock && kind = .blockSequence then
            finish (.sequence p.line (p.tagOr "!!seq")) (blockItems? fuel opened rest)
          else if inBlock && kind = .blockMapping then
            finish (.mapping p.line (p.tagOr "!!map")) (blockEntries? fuel opened rest)
          else emptied p declared ts
        | ts => emptied p declared ts

/-- The items of a block sequence. -/
def blockItems? : Nat → Declared → List Token → Parsed (List Node)
  | 0, _, _ => none
  | fuel + 1, declared, ts =>
    match ts with
    | .mark .blockEntry line :: rest =>
      let item := if isMark [.blockEntry, .blockEnd] rest then
          some (emptyNode (line + 1), declared, rest)
        else node? fuel true false declared rest
      match item with
      | none => none
      | some (item, declared, rest) =>
        match blockItems? fuel declared rest with
        | none => none
        | some (items, declared, rest) => some (item :: items, declared, rest)
    | .mark .blockEnd _ :: rest => some ([], declared, rest)
    | _ => none

/-- The items of a sequence without an indentation of its own. -/
def looseItems? : Nat → Declared → List Token → Parsed (List Node)
  | 0, _, _ => none
  | fuel + 1, declared, ts =>
    match ts with
    | .mark .blockEntry line :: rest =>
      let item := if isMark [.blockEntry, .key, .value, .blockEnd] rest then
          some (emptyNode (line + 1), declared, rest)
        else node? fuel true false declared rest
      match item with
      | none => none
      | some (item, declared, rest) =>
        match looseItems? fuel declared rest with
        | none => none
        | some (items, declared, rest) => some (item :: items, declared, rest)
    | .malformed :: _ => none
    | ts => some ([], declared, ts)

/-- The entries of a block mapping. -/
def blockEntries? : Nat → Declared → List Token → Parsed (List (Node × Node))
  | 0, _, _ => none
  | fuel + 1, declared, ts =>
    match ts with
    | .mark .blockEnd _ :: rest => some ([], declared, rest)
    | .mark .key line :: rest =>
      let key := if isMark [.key, .value, .blockEnd] rest then
          some (emptyNode (line + 1), declared, rest)
        else node? fuel true true declared rest
      match key with
      | none => none
      | some (key, declared, rest) =>
        match blockValue? fuel declared rest with
        | none => none
        | some (value, declared, rest) =>
          match blockEntries? fuel declared rest with
          | none => none
          | some (entries, declared, rest) => some ((key, value) :: entries, declared, rest)
    | _ => none

def blockValue? : Nat → Declared → List Token → Parsed Node
  | 0, _, _ => none
  | fuel + 1, declared, ts =>
    match ts with
    | .mark .value line :: rest =>
      if isMark [.key, .value, .blockEnd] rest then some (emptyNode (line + 1), declared, rest)
      else node? fuel true true declared rest
    | .malformed :: _ => none
    | ts => some (emptyNode (((ts.head?.map Token.line).getD 0) + 1), declared, ts)

/-- The items of a flow sequence. An entry with a key is a mapping of its own. -/
def flowItems? : Nat → Bool → Declared → List Token → Parsed (List Node)
  | 0, _, _, _ => none
  | fuel + 1, first, declared, ts =>
    match ts with
    | .mark .flowSequenceEnd _ :: rest => some ([], declared, rest)
    | ts =>
      let start := if first then some ts else match ts with
        | .mark .flowEntry _ :: rest => some rest
        | _ => none
      match start with
      | none => none
      | some (.mark .flowSequenceEnd _ :: rest) => some ([], declared, rest)
      | some (.mark .key line :: rest) =>
        let key :=
          if isMark [.value, .flowEntry, .flowSequenceEnd] rest then
            some (emptyNode (line + 1), declared, rest.drop 1)
          else node? fuel false false declared rest
        match key with
        | none => none
        | some (key, declared, rest) =>
          match flowValue? fuel .flowSequenceEnd declared rest with
          | none => none
          | some (value, declared, rest) =>
            match flowItems? fuel false declared rest with
            | none => none
            | some (items, declared, rest) =>
              some (.mapping (line + 1) "!!map" [(key, value)] :: items, declared, rest)
      | some ts =>
        match node? fuel false false declared ts with
        | none => none
        | some (item, declared, rest) =>
          match flowItems? fuel false declared rest with
          | none => none
          | some (items, declared, rest) => some (item :: items, declared, rest)

/-- The value of a key in a flow collection that ends with a mark. -/
def flowValue? : Nat → Mark → Declared → List Token → Parsed Node
  | 0, _, _, _ => none
  | fuel + 1, closing, declared, ts =>
    let missing (ts : List Token) : Parsed Node :=
      some (emptyNode (((ts.head?.map Token.line).getD 0) + 1), declared, ts)
    match ts with
    | .mark .value _ :: rest =>
      if isMark [.flowEntry, closing] rest then missing rest
      else node? fuel false false declared rest
    | .malformed :: _ => none
    | ts => missing ts

/-- The entries of a flow mapping. -/
def flowEntries? : Nat → Bool → Declared → List Token → Parsed (List (Node × Node))
  | 0, _, _, _ => none
  | fuel + 1, first, declared, ts =>
    match ts with
    | .mark .flowMappingEnd _ :: rest => some ([], declared, rest)
    | ts =>
      let start := if first then some ts else match ts with
        | .mark .flowEntry _ :: rest => some rest
        | _ => none
      match start with
      | none => none
      | some (.mark .flowMappingEnd _ :: rest) => some ([], declared, rest)
      | some (.mark .key _ :: rest) =>
        let key :=
          if isMark [.value, .flowEntry, .flowMappingEnd] rest then
            some (emptyNode (((rest.head?.map Token.line).getD 0) + 1), declared, rest)
          else node? fuel false false declared rest
        match key with
        | none => none
        | some (key, declared, rest) =>
          match flowValue? fuel .flowMappingEnd declared rest with
          | none => none
          | some (value, declared, rest) =>
            match flowEntries? fuel false declared rest with
            | none => none
            | some (entries, declared, rest) => some ((key, value) :: entries, declared, rest)
      | some ts =>
        match node? fuel false false declared ts with
        | none => none
        | some (key, declared, rest) =>
          let value := emptyNode (((rest.head?.map Token.line).getD 0) + 1)
          match flowEntries? fuel false declared rest with
          | none => none
          | some (entries, declared, rest) => some ((key, value) :: entries, declared, rest)

end

/-- A stream: empty, malformed, or with a first document. -/
inductive Stream
  | empty
  | malformed
  | document (root : Node) (declared : Declared)

/-- The token after the root must at least be readable. -/
def rooted : Parsed Node → Stream
  | some (node, declared, rest) =>
    if rest.head? == some .malformed then .malformed else .document node declared
  | none => .malformed

/-- What the directives before a document say: the version, which must be the right one, and what
handles stand for. Neither can be said twice. -/
def directed? : Bool → List (String × String) → List Token →
    Option (List (String × String) × List Token)
  | versioned, handles, .directive (.version major minor) _ :: rest =>
    if versioned || major ≠ 1 || minor ≠ 1 then none else directed? true handles rest
  | versioned, handles, .directive (.handle name expansion) _ :: rest =>
    if (handles.lookup name).isSome then none
    else directed? versioned ((name, expansion) :: handles) rest
  | _, handles, ts => some (handles ++ standardHandles, ts)

def startsDirective : List Token → Bool
  | .directive .. :: _ => true
  | _ => false

/-- Reads the first document of a stream of bytes. Directives need a mark after them. -/
def read (source : List UInt8) : Stream :=
  let ts := tokens source
  let fuel := 2 * ts.length + 2
  match ts.head?, directed? false [] ts with
  | some (.mark .streamEnd _), _ => .empty
  | _, none => .malformed
  | _, some (handles, rest) =>
    let declared : Declared := { handles, size := ts.length }
    match rest with
    | .mark .documentStart line :: rest =>
      if isMark [.documentStart, .documentEnd, .streamEnd] rest || startsDirective rest then
        rooted (some (emptyNode (line + 1), declared, rest))
      else rooted (node? fuel true false declared rest)
    | rest => if startsDirective ts then .malformed else rooted (node? fuel true false declared rest)

end Lowering.Yaml
