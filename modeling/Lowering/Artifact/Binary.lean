import Lowering.Artifact.Constant
import Lowering.Artifact.Document
import Lowering.Cbor.Decode

/-!
Documents in binary form. A structure is a map whose keys are small numbers in ascending order;
most fields are left out while they hold nothing. Reading takes the first entry of every field,
passes over the entries that it does not know, and takes a null for a field left out.
-/

namespace Lowering.Artifact
open Cbor

/-- The entry of a field. -/
def field (number : Nat) (item : Item) : List (Item × Item) := [(.natural number, item)]

def numberItem (n : Int64) : Item := .ofInt n.toInt

def numberField (number : Nat) (n : Int64) : List (Item × Item) := field number (numberItem n)

/-- A field that is left out while it is zero. -/
def optionalNumber (number : Nat) (n : Int64) : List (Item × Item) :=
  if n = 0 then [] else numberField number n

def optionalText (number : Nat) (s : String) : List (Item × Item) :=
  if s = "" then [] else field number (.text s)

def optionalFlag (number : Nat) (b : Bool) : List (Item × Item) :=
  if b then field number (.bool true) else []

def optionalList (number : Nat) (items : List Item) : List (Item × Item) :=
  if items.isEmpty then [] else field number (.array items)

mutual

/-- The form of a constant. Objects are written with their visible parts; `deep` follows
references. -/
def valueItemWith (deep : Value → Item) : Value → Item
  | .none => .null
  | .bool b => .bool b
  | .int n | .word n => numberItem n
  | .word32 n => .ofInt n.toInt
  | .natural n => .natural n.toNat
  | .float x | .single x => .float x
  | .str s => .text s
  | .tuple items | .sequence items => .array (valueItemsWith deep items)
  | .null | .unbound | .iterator _ => .map []
  | v => deep v

def valueItemsWith (deep : Value → Item) : List Value → List Item
  | [] => []
  | v :: rest => valueItemWith deep v :: valueItemsWith deep rest

end

/-- The form of a class: its name and the form of its base. -/
def classItem (h : Heap) : List Nat → Item
  | [] => .null
  | ref :: ancestors =>
    .map [(.text "Name", .text (h.cls ref).name), (.text "Base", classItem h ancestors)]

/-- The form of a value, following at most so many references in a row. -/
def valueItem (h : Heap) : Nat → Value → Item
  | 0, _ => .null
  | fuel + 1, v =>
    valueItemWith (fun
      | .list ref =>
        .map [(.text "Items", .array ((h.list ref).toList.map (valueItem h fuel)))]
      | .record ref =>
        let r := h.record ref
        .map [(.text "Name", .text r.name),
              (.text "Attrs", .map (r.attrs.map fun (k, w) => (.text k, valueItem h fuel w)))]
      | .cls ref => classItem h (ref :: (h.cls ref).ancestors)
      | _ => .null) v

def Op.item (h : Heap) (o : Op) : Item :=
  .map <|
    field 1 (.text o.op) ++ optionalNumber 2 o.a ++ optionalNumber 3 o.b ++ optionalNumber 4 o.arg
    ++ optionalText 5 o.helper ++ optionalText 6 o.name
    ++ (match o.value with
      | .none => []
      | v => field 7 (valueItem h (h.size + 1) v))
    ++ optionalFlag 8 o.null ++ numberField 9 o.origin

def regionItem (r : Host.Protected) : Item :=
  .map (numberField 1 r.start ++ numberField 2 r.stop ++ numberField 3 r.handler
    ++ numberField 4 r.depth)

def Handler.item (r : Handler) : Item :=
  .map (numberField 1 r.id ++ field 2 (.text r.dialect) ++ numberField 3 r.start
    ++ numberField 4 r.stop ++ numberField 5 r.target ++ numberField 6 r.depth
    ++ numberField 7 r.entryDepth ++ optionalFlag 8 r.lasti)

/-- The form of a routine. `ops` is null when there are none and none were ever listed. -/
def Routine.item (h : Heap) (r : Routine) : Item :=
  .map (field 1 (.text r.name) ++ optionalText 2 r.filename ++ field 3 (.text r.version)
    ++ numberField 4 r.localCount ++ numberField 5 r.maxDepth
    ++ field 6 (if r.ops.isEmpty then .null else .array (r.ops.map (Op.item h)))
    ++ optionalList 7 (r.regions.map regionItem) ++ optionalList 8 (r.handlers.map Handler.item))

def Document.item (h : Heap) (d : Document) : Item :=
  .map (field 1 (.array (d.routines.map (Routine.item h))))

/-- The bytes of a document. -/
def Document.encode (h : Heap) (d : Document) : List UInt8 := (d.item h).encode

/-- An item without the tags around it, all of which have to suit it. -/
def bare? : Item → Option Item
  | .tag number content => if tagAllows number content then bare? content else none
  | item => some item

/-- The entries of a structure. Null has none. -/
def entriesOf (item : Item) : Option (List (Item × Item)) :=
  match bare? item with
  | some (.map entries) => some entries
  | some .null => some []
  | _ => none

/-- Keys can be numbers and texts, and both find the field. -/
def keyIs (number : Nat) : Item → Bool
  | .natural n => n == number
  | .text s => s == toString number
  | _ => false

/-- The content of a field: null when it is left out. -/
def entry (entries : List (Item × Item)) (number : Nat) : Item :=
  match entries.find? fun (key, _) => keyIs number key with
  | some (_, item) => item
  | none => .null

/-- Whether a key can name a field, known or not. -/
def keyFits : Item → Bool
  | .natural _ | .text _ => true
  | .negative n => (word? (-1 - n)).isSome
  | _ => false

/-- A number. Big numbers are taken when they are small enough. -/
def number? : Item → Option Int64
  | .natural n => word? n
  | .negative n => word? (-1 - n)
  | .simple n => word? n
  | .null => some 0
  | .tag 2 (.bytes bs) => word? (bytesNumber bs)
  | .tag 3 (.bytes bs) => word? (-1 - bytesNumber bs)
  | .tag number content => if tagAllows number content then number? content else none
  | _ => none

def text? (item : Item) : Option String :=
  match bare? item with
  | some (.text s) => some s
  | some .null => some ""
  | _ => none

def flag? (item : Item) : Option Bool :=
  match bare? item with
  | some (.bool b) => some b
  | some .null => some false
  | _ => none

/-- The elements of a list. Null has none. -/
def elements? (item : Item) : Option (List Item) :=
  match bare? item with
  | some (.array items) => some items
  | some .null => some []
  | _ => none

/-- Reads a structure from its entries, all of whose keys must be names of fields. -/
def structure? {α : Type} (item : Item) (read : (Nat → Item) → Option α) : Option α :=
  match entriesOf item with
  | none => none
  | some entries => if entries.all (fun (key, _) => keyFits key) then read (entry entries) else none

def Op.ofItem? (item : Item) : Option Op :=
  structure? item fun get => do
    let op ← text? (get 1)
    let a ← number? (get 2)
    let b ← number? (get 3)
    let arg ← number? (get 4)
    let helper ← text? (get 5)
    let name ← text? (get 6)
    let value ← value? true (get 7)
    let null ← flag? (get 8)
    let origin ← number? (get 9)
    pure { op, a, b, arg, helper, name, value, null, origin }

def regionOfItem? (item : Item) : Option Host.Protected :=
  structure? item fun get => do
    let start ← number? (get 1)
    let stop ← number? (get 2)
    let handler ← number? (get 3)
    let depth ← number? (get 4)
    pure { start, stop, handler, depth }

def Handler.ofItem? (item : Item) : Option Handler :=
  structure? item fun get => do
    let id ← number? (get 1)
    let dialect ← text? (get 2)
    let start ← number? (get 3)
    let stop ← number? (get 4)
    let target ← number? (get 5)
    let depth ← number? (get 6)
    let entryDepth ← number? (get 7)
    let lasti ← flag? (get 8)
    pure { id, dialect, start, stop, target, depth, entryDepth, lasti }

def Routine.ofItem? (item : Item) : Option Routine :=
  structure? item fun get => do
    let name ← text? (get 1)
    let filename ← text? (get 2)
    let version ← text? (get 3)
    let localCount ← number? (get 4)
    let maxDepth ← number? (get 5)
    let ops ← (← elements? (get 6)).mapM Op.ofItem?
    let regions ← (← elements? (get 7)).mapM regionOfItem?
    let handlers ← (← elements? (get 8)).mapM Handler.ofItem?
    pure { name, filename, version, localCount, maxDepth, ops, regions, handlers }

def Document.ofItem? (item : Item) : Option Document :=
  structure? item fun get => do
    let routines ← (← elements? (get 1)).mapM Routine.ofItem?
    pure { routines }

/-- The document that bytes stand for. -/
def Document.decode? (bytes : List UInt8) : Option Document :=
  match Cbor.decode? bytes with
  | some item => Document.ofItem? item
  | none => none

end Lowering.Artifact
