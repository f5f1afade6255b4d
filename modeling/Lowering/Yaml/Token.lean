import Lowering.Yaml.Tag

/-!
The tokens of a YAML stream. Every token has the number of its line, counted from zero.
-/

namespace Lowering.Yaml

inductive Mark
  | streamStart
  | streamEnd
  | documentStart
  | documentEnd
  | blockSequence
  | blockMapping
  | blockEnd
  | flowSequence
  | flowSequenceEnd
  | flowMapping
  | flowMappingEnd
  | blockEntry
  | flowEntry
  | key
  | value
deriving DecidableEq, Repr

inductive Token
  | mark (kind : Mark) (line : Nat)
  | directive (content : Directive) (line : Nat)
  | alias (name : String) (line : Nat)
  | anchor (name : String) (line : Nat)
  | tag (handle suffix : String) (line : Nat)
  | scalar (plain : Bool) (text : String) (line : Nat)
  /-- From here on the stream is malformed. -/
  | malformed
deriving DecidableEq, Repr

def Token.line : Token → Nat
  | .mark _ line | .directive _ line | .alias _ line | .anchor _ line | .tag _ _ line
  | .scalar _ _ line => line
  | .malformed => 0

end Lowering.Yaml
