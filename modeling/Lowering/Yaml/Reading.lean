import Lowering.Decimal.Shortest
import Lowering.Text.Quoted
import Lowering.Word
import Lowering.Yaml.Base64
import Lowering.Yaml.Node

/-!
Reading nodes as data of a wanted form. A node of another form is reported with its line, and
reading goes on, so that one reading can report several. Null is no value: it leaves what is
there, and a list passes over it. An alias is read as the node that it stands for, unless that is
being read as the same alias already; and a document whose aliases multiply it beyond measure is
refused.
-/

namespace Lowering.Yaml

/-- Why reading stops at once. -/
inductive Failure
  | malformed
  /-- A scalar that its reader refused, with the refusal. -/
  | refused (text : String)

/-- How far a reading has come. -/
structure Progress where
  /-- The reports, the last first. -/
  reports : List String := []
  /-- How many nodes were read, and how many of them for an alias. -/
  visits : Nat := 0
  aliasVisits : Nat := 0
  /-- The numbers of the aliases that are being followed. -/
  followed : List Nat := []

/-- A reading knows what its document declares. -/
abbrev Reading (α : Type) := ReaderT Declared (StateT Progress (Except Failure)) α

def tell (report : String) : Reading Unit :=
  modify fun p => { p with reports := report :: p.reports }

/-- The share of visits that may be for aliases: nearly all of them in documents of a moderate size,
and a tenth in the largest ones. -/
def aliasShare (visits : Nat) : Float :=
  let low := 400000
  let high := 4000000
  if visits ≤ low then 0.99
  else if visits ≥ high then 0.10
  else 0.99 - 0.89 * (Float.ofNat (visits - low) / Float.ofNat (high - low))

/-- Counts a visit. A few aliases are always allowed. -/
def visit : Reading Unit := do
  let p ← get
  let visits := p.visits + 1
  let aliasVisits := if p.followed.isEmpty then p.aliasVisits else p.aliasVisits + 1
  if aliasVisits > 100 && visits > 1000
      && Float.ofNat aliasVisits / Float.ofNat visits > aliasShare visits then
    throw .malformed
  set { p with visits, aliasVisits }

/-- The node that a node stands for. -/
def Declared.target (d : Declared) : Node → Node
  | .alias _ _ _ target => d.nodes.getD target default
  | n => n

/-- Visits a node, and reads it or the node that it stands for. -/
def follow {α : Type} (read : Node → Reading α) (n : Node) : Reading α := do
  visit
  match n with
  | .alias _ _ number _ =>
    if (← get).followed.contains number then throw .malformed
    modify fun p => { p with followed := number :: p.followed }
    visit
    let result ← read ((← readThe Declared).target n)
    modify fun p => { p with followed := p.followed.drop 1 }
    pure result
  | n => read n

/-- The first bytes of a text. -/
def firstBytes (n : Nat) (s : String) : String := Text.ofBytes ((Text.bytes s).take n)

/-- The content of a scalar in a report: long ones are cut. -/
def excerpt (s : String) : String :=
  if (Text.bytes s).length > 10 then s!" `{firstBytes 7 s}...`" else s!" `{s}`"

def Node.text : Node → String
  | .scalar _ _ text => text
  | .alias _ name _ _ => name
  | _ => ""

/-- Reports that a node is not of the wanted form. -/
def mismatch (n : Node) (wanted : String) : Reading Unit :=
  let content := if n.tag == "!!seq" || n.tag == "!!map" then n.text else excerpt n.text
  tell s!"line {n.line}: cannot unmarshal {n.tag}{content} into {wanted}"

/-- What a scalar holds: its meaning, and its text after decoding. -/
def content (tag text : String) : Reading (Meaning × String) :=
  if tag == "!!binary" then
    match base64? text with
    | some bytes => pure (.text, Text.ofBytes bytes)
    | none => throw .malformed
  else match tagged tag text with
    | some meaning => pure (meaning, text)
    | none => throw .malformed

/-- Whether two keys of a mapping are the same as they are written. -/
def sameKey : Node → Node → Bool
  | .scalar _ _ a, .scalar _ _ b => a == b
  | .sequence .., .sequence .. => true
  | .mapping .., .mapping .. => true
  | .alias _ a _ _, .alias _ b _ _ => a == b
  | _, _ => false

/-- Reports the keys of a mapping that occur again. -/
def repeatedKeys : List (Node × Node) → List String
  | [] => []
  | (key, _) :: rest =>
    (rest.filterMap fun (other, _) =>
      if sameKey key other then
        some s!"line {other.line}: mapping key {Text.quote other.text} already defined at line {key.line}"
      else none) ++ repeatedKeys rest

/-- Whether all keys of a mapping differ. -/
def distinctKeys (entries : List (Node × Node)) : Reading Bool := do
  let reports := repeatedKeys entries
  reports.forM tell
  pure reports.isEmpty

/-- Reports a node of another form. The keys of a mapping must differ even so. -/
def refuse {α : Type} (wanted : String) (n : Node) : Reading (Option α) := do
  match n with
  | .mapping _ _ entries => if ← distinctKeys entries then mismatch n wanted
  | n => mismatch n wanted
  pure none

/-- A scalar, by what its content gives. What is neither a scalar nor null is reported. -/
def scalarAs {α : Type} (wanted : String) (take : Meaning → String → Except Failure (Option α))
    (n : Node) : Reading (Option α) := do
  match n with
  | .scalar _ tag text =>
    let (meaning, text) ← content tag text
    match meaning with
    | .null => pure none
    | meaning =>
      match take meaning text with
      | .error failure => throw failure
      | .ok (some value) => pure (some value)
      | .ok none => refuse wanted n
  | n => refuse wanted n

/-- The text of any scalar. -/
def text : Node → Reading (Option String) :=
  follow (scalarAs "string" fun _ text => .ok (some text))

/-- The integer part of a number; beyond the range it is the least integer. -/
def truncated (x : Float) : Int64 :=
  match Decimal.decode x with
  | (_, .zero) => 0
  | (negative, .finite value) =>
    let size := value.m * Decimal.twoTo value.q.toNat / Decimal.twoTo (-value.q).toNat
    let n : Int := if negative then -(size : Int) else size
    (word? n).getD Int64.minValue
  | _ => Int64.minValue

/-- A number: integers of the range, and other numbers up to its end without their fraction. -/
def numberAs : Node → Reading (Option Int64) :=
  scalarAs "int" fun meaning _ => .ok (match meaning with
    | .int n => some n
    | .float x => if x ≤ 9223372036854775808.0 then some (truncated x) else none
    | _ => none)

def number : Node → Reading (Option Int64) := follow numberAs

/-- A number that can be missing. Null stands for none, and only as a scalar. -/
def optionalNumber : Node → Reading (Option (Option Int64)) :=
  follow fun n => do
    if n.isNull then
      match n with
      | .scalar _ tag text =>
        let _ ← content tag text
        pure (some none)
      | n => refuse "*int" n
    else
      let found ← numberAs n
      pure (found.map some)

/-- A truth value, for which several words are taken. -/
def truth : Node → Reading (Option Bool) :=
  follow <| scalarAs "bool" fun meaning text => .ok (match meaning with
    | .bool b => some b
    | .text =>
      if ["y", "Y", "yes", "Yes", "YES", "on", "On", "ON"].contains text then some true
      else if ["n", "N", "no", "No", "NO", "off", "Off", "OFF"].contains text then some false
      else none
    | _ => none)

/-- The elements that could be read. -/
def elements {α : Type} (element : Node → Reading (Option α)) : List Node → Reading (List α)
  | [] => pure []
  | n :: rest => do
    let first ← element n
    let others ← elements element rest
    pure (first.toList ++ others)

/-- A list. Null is the empty one. -/
def listOf {α : Type} (wanted : String) (element : Node → Reading (Option α)) :
    Node → Reading (Option (List α)) :=
  follow fun n => do
    match n with
    | .sequence _ _ items => some <$> elements element items
    | .scalar _ tag text =>
      match ← content tag text with
      | (.null, _) => pure (some [])
      | _ => refuse wanted n
    | n => refuse wanted n

/-- A field that keeps what is there when nothing could be read. -/
def into {σ α : Type} (read : Node → Reading (Option α)) (store : σ → α → σ) :
    Node → σ → Reading σ := fun n s => do
  match ← read n with
  | some value => pure (store s value)
  | none => pure s

/-- The outcome of reading a stream. -/
inductive Outcome (α : Type)
  | value (a : α)
  /-- There is no document. -/
  | empty
  | malformed
  | refused (text : String)
  | mismatched (reports : List String)

/-- Reads the first document of a stream. The document counts as a node. -/
def readAs {α : Type} (reading : Node → Reading α) (source : List UInt8) : Outcome α :=
  match read source with
  | .empty => .empty
  | .malformed => .malformed
  | .document root declared =>
    match ((do visit; reading root) : Reading α).run declared |>.run {} with
    | .error .malformed => .malformed
    | .error (.refused text) => .refused text
    | .ok (a, progress) =>
      if progress.reports.isEmpty then .value a else .mismatched progress.reports.reverse

/-- The wording of reports. -/
def reportText (reports : List String) : String :=
  "yaml: unmarshal errors:\n  " ++ "\n  ".intercalate reports

end Lowering.Yaml
