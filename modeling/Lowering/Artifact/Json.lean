import Lowering.Artifact.Document
import Lowering.Text.Color

/-!
Documents as JSON: indented by two spaces, either plainly, with the fields in their own order, or
decorated, with the fields sorted and everything in colour.
-/

namespace Lowering.Artifact

/-- A JSON document. Numbers are already written. -/
inductive Node
  | null
  | flag (b : Bool)
  | number (digits : String)
  | text (s : String)
  | list (items : List Node)
  | fields (entries : List (String × Node))
deriving Inhabited

/-- How a document is written. -/
structure Style where
  /-- Escapes the characters that are special in markup. -/
  markup : Bool
  sorted : Bool
  colored : Bool

def Style.plain : Style := ⟨true, false, false⟩

def Style.decorated (colored : Bool) : Style := ⟨false, true, colored⟩

/-- One character of a text. -/
def jsonChar (markup : Bool) (c : Char) : List Char :=
  if c = '"' || c = '\\' then ['\\', c]
  else if c.toNat = 8 then ['\\', 'b']
  else if c.toNat = 12 then ['\\', 'f']
  else if c = '\n' then ['\\', 'n']
  else if c = '\r' then ['\\', 'r']
  else if c = '\t' then ['\\', 't']
  else if c.toNat < 0x20 || c.toNat = 0x2028 || c.toNat = 0x2029
      || (markup && (c = '<' || c = '>' || c = '&')) then
    '\\' :: 'u' :: Text.hexDigits 4 c.toNat
  else [c]

/-- A stray byte becomes a replacement mark, which is written out where markup is escaped too. -/
def jsonRune (markup : Bool) : Text.Rune → List Char
  | .char c => jsonChar markup c
  | .stray _ => if markup then "\\ufffd".toList else [Text.replacement]

def jsonText (markup : Bool) (s : String) : String :=
  String.ofList ('"' :: ((Text.runes s).flatMap (jsonRune markup) ++ ['"']))

def Style.paint (style : Style) (code : String) (s : String) : String :=
  Text.paint style.colored (some (.strong code)) s

def indent (depth : Nat) : String := String.ofList (List.replicate (2 * depth) ' ')

/-- Lines between brackets. -/
def bracketed (depth : Nat) (opening closing : String) : List String → String
  | [] => opening ++ closing
  | lines =>
    opening ++ "\n" ++ ",\n".intercalate (lines.map fun line => indent (depth + 1) ++ line)
      ++ "\n" ++ indent depth ++ closing

/-- The fields in the order of a style. -/
def Style.arrange (style : Style) (fields : List (String × String)) : List (String × String) :=
  if style.sorted then fields.mergeSort fun a b => !(b.1 < a.1) else fields

mutual

def Node.renderAt (style : Style) (depth : Nat) : Node → String
  | .null => style.paint "30" "null"
  | .flag b => style.paint "33" (Value.boolText b)
  | .number digits => style.paint "36" digits
  | .text s => style.paint "32" (jsonText style.markup s)
  | .list items => bracketed depth "[" "]" (renderAll style (depth + 1) items)
  | .fields entries =>
    bracketed depth "\x7b" "\x7d" <|
      (style.arrange (renderFields style (depth + 1) entries)).map fun (name, value) =>
        style.paint "34" (jsonText style.markup name) ++ ": " ++ value

def renderAll (style : Style) (depth : Nat) : List Node → List String
  | [] => []
  | node :: rest => node.renderAt style depth :: renderAll style depth rest

def renderFields (style : Style) (depth : Nat) : List (String × Node) → List (String × String)
  | [] => []
  | (name, node) :: rest => (name, node.renderAt style depth) :: renderFields style depth rest

end

def Node.render (style : Style) (node : Node) : String := node.renderAt style 0

/-- The digits of a number. Numbers that are not finite have none. -/
def floatNode (x : Float) : Except String Node :=
  let digits := Decimal.Layout.json.magnitude id (Decimal.decode x)
  if x.isNaN || x.isInf then .error ("json: unsupported value: " ++ digits)
  else .ok (.number digits)

def intNode (n : Int64) : Node := .number (toString n.toInt)

mutual

/-- A constant in the plain form of documents. -/
def valueNode : Value → Except String Node
  | .bool b => .ok (.flag b)
  | .int n => .ok (intNode n)
  | .float x => floatNode x
  | .str s => .ok (.text s)
  | .sequence items => (valueNodes items).map .list
  | _ => .ok .null

def valueNodes : List Value → Except String (List Node)
  | [] => .ok []
  | v :: rest =>
    match valueNode v with
    | .error text => .error text
    | .ok node => (valueNodes rest).map (node :: ·)

end

def optionalIntNode (name : String) (n : Int64) : List (String × Node) :=
  if n = 0 then [] else [(name, intNode n)]

def optionalTextNode (name : String) (s : String) : List (String × Node) :=
  if s = "" then [] else [(name, .text s)]

def optionalListNode (name : String) (items : List Node) : List (String × Node) :=
  if items.isEmpty then [] else [(name, .list items)]

def Op.node (o : Op) : Except String Node := do
  let value ← match o.value with
    | .none => pure []
    | v => do pure [("value", ← valueNode v)]
  pure <| .fields <|
    [("op", .text o.op)] ++ optionalIntNode "a" o.a ++ optionalIntNode "b" o.b
    ++ optionalIntNode "arg" o.arg ++ optionalTextNode "helper" o.helper
    ++ optionalTextNode "name" o.name ++ value
    ++ (if o.null then [("null", .flag true)] else []) ++ [("origin", intNode o.origin)]

def regionNode (r : Host.Protected) : Node :=
  .fields [("start", intNode r.start), ("end", intNode r.stop), ("handler", intNode r.handler),
    ("depth", intNode r.depth)]

def Handler.node (r : Handler) : Node :=
  .fields <|
    [("id", intNode r.id), ("dialect", .text r.dialect), ("start", intNode r.start),
      ("end", intNode r.stop), ("target", intNode r.target), ("depth", intNode r.depth),
      ("entry_depth", intNode r.entryDepth)]
    ++ (if r.lasti then [("lasti", .flag true)] else [])

def Routine.node (r : Routine) : Except String Node := do
  let ops ← r.ops.mapM Op.node
  pure <| .fields <|
    [("name", .text r.name)] ++ optionalTextNode "filename" r.filename
    ++ [("version", .text r.version), ("local_count", intNode r.localCount),
      ("max_depth", intNode r.maxDepth), ("ops", .list ops)]
    ++ optionalListNode "regions" (r.regions.map regionNode)
    ++ optionalListNode "handlers" (r.handlers.map Handler.node)

def Document.node (d : Document) : Except String Node := do
  let routines ← d.routines.mapM Routine.node
  pure (.fields [("routines", .list routines)])

/-- A document as text that ends with its line. -/
def Document.json (style : Style) (d : Document) : Except String String :=
  d.node.map fun node => node.render style ++ "\n"

end Lowering.Artifact
