import Lowering.Decimal.Layout
import Lowering.Heap
import Lowering.Text.Blank
import Lowering.Text.Quoted

/-!
Values as text. The guest's own form is `repr`; the plain form is the one of listings and
messages, which shows the content of an object only where it stands alone. Both follow
references, so both are given a bound on how many they may follow in a row; they fail on objects
that contain themselves.
-/

namespace Lowering.Heap

/-- What stands for an object inside another one in the plain form. -/
def hidden : String := "0xc000000000"

mutual

/-- The plain form of a value inside another one. Exceptions and routines speak for themselves
when `visible` says that they may. -/
def interior (visible : Bool) (alone : Value → Option String) : Value → Option String
  | .none => some "<nil>"
  | .bool b => some (Value.boolText b)
  | .int n => some (toString n.toInt)
  | .float x => some (Decimal.text x)
  | .str s => some s
  | .tuple items => (interiorAll visible alone items).map fun parts => "[" ++ Text.join " " parts ++ "]"
  | .sequence items =>
    (interiorAll visible alone items).map fun parts => "[" ++ Text.join " " parts ++ "]"
  | .null => some (if visible then "NULL" else "{}")
  | .unbound => some "{}"
  | .exception ref => if visible then alone (.exception ref) else some hidden
  | .routine ref => if visible then alone (.routine ref) else some hidden
  | .list _ | .record _ | .iterator _ | .cls _ | .builtin _ | .function _ => some hidden
  | .word n => some (toString n.toInt)
  | .word32 n => some (toString n.toInt)
  | .natural n => some (toString n.toNat)
  | .single x => some (Decimal.singleText x)
  | .foreign _ text => some text

def interiorAll (visible : Bool) (alone : Value → Option String) :
    List Value → Option (List String)
  | [] => some []
  | v :: rest => do
    let text ← interior visible alone v
    let texts ← interiorAll visible alone rest
    pure (text :: texts)

end

mutual

/-- One layer of `repr`: references are followed by `deep`, all other forms are plain. -/
def reprLayer (deep plain : Value → Option String) : Value → Option String
  | .none => some "None"
  | .bool b => some (if b then "True" else "False")
  | .str s => some ("'" ++ s ++ "'")
  | .tuple items => (reprLayerAll deep plain items).map fun
    | [part] => "(" ++ part ++ ",)"
    | parts => "(" ++ Text.join ", " parts ++ ")"
  | .list ref => deep (.list ref)
  | .exception ref => deep (.exception ref)
  | .cls ref => deep (.cls ref)
  | .builtin ref => deep (.builtin ref)
  | .function ref => deep (.function ref)
  | v => plain v

def reprLayerAll (deep plain : Value → Option String) : List Value → Option (List String)
  | [] => some []
  | v :: rest => do
    let text ← reprLayer deep plain v
    let texts ← reprLayerAll deep plain rest
    pure (text :: texts)

end

/-- A sorted copy of the attributes. -/
def sortedAttrs (attrs : List (String × Value)) : List (String × Value) :=
  attrs.mergeSort fun a b => !(b.1 < a.1)

/-- An operation as text; `plain` gives the text of constants. -/
def operationTextWith (plain : Value → String) : Host.Operation → String
  | .label id => Host.labelText id ++ ":"
  | .const (.str s) => "Const " ++ Text.quote s
  | .const .none => "Const nil"
  | .const v => "Const " ++ plain v
  | .loadLocal i => s!"LoadLocal {i.toInt}"
  | .storeLocal i => s!"StoreLocal {i.toInt}"
  | .deleteLocal i => s!"DeleteLocal {i.toInt}"
  | .loadGlobal name => "LoadGlobal " ++ name
  | .storeGlobal name => "StoreGlobal " ++ name
  | .pop => "Pop"
  | .dup => "Dup"
  | .pick depth => s!"Pick {depth.toInt}"
  | .swap depth => s!"Swap {depth.toInt}"
  | .invoke inv =>
    let head := s!"Invoke {inv.helper.name}/{inv.args.toInt}->{inv.results.toInt}"
    if inv.name != "" then head ++ " " ++ inv.name
    else if inv.helper.takesNumber then head ++ s!" {inv.arg.toInt}"
    else head
  | .goto label => "Goto " ++ Host.labelText label
  | .ifTrue label => "IfTrue " ++ Host.labelText label
  | .ifFalse label => "IfFalse " ++ Host.labelText label
  | .ret => "Return"
  | .throw => "Throw"
  | .getHandled => "GetHandled"
  | .setHandled => "SetHandled"

/-- A routine as text: a heading, the operations with their indices, and the protected ranges. -/
def routineTextWith (plain : Value → String) (r : Host.Routine) : String :=
  let heading := s!"routine {r.name} locals={r.localCount.toInt} max_depth={r.maxDepth.toInt}\n"
  let lines := r.ops.toList.zipIdx.map fun (o, i) =>
    match o with
    | .label _ => operationTextWith plain o ++ "\n"
    | _ => "  " ++ Text.padLeft 4 (toString i) ++ "  " ++ operationTextWith plain o ++ "\n"
  let regions := r.regions.map fun region => "  protect " ++ region.text ++ "\n"
  heading ++ String.join lines ++ String.join regions

/-- An argument of an exception in its plain form. Texts are shown as they are. -/
def argumentText (repr : Value → Option String) : Value → Option String
  | .str s => some s
  | v => repr v

/-- One layer of the plain form of an object that stands alone. The text of a routine shows its
constants. -/
def objectPlain (h : Heap) (repr plain : Value → Option String) : Value → Option String
  | .list ref => do
    let parts ← interiorAll true plain (h.list ref).toList
    pure ("&\x7b[" ++ Text.join " " parts ++ "]\x7d")
  | .record ref => do
    let record := h.record ref
    let attrs := sortedAttrs record.attrs
    let parts ← interiorAll true plain (attrs.map Prod.snd)
    let entries := (attrs.map Prod.fst).zipWith (fun name text => name ++ ":" ++ text) parts
    pure ("&\x7b" ++ record.name ++ " map[" ++ Text.join " " entries ++ "]\x7d")
  | .iterator ref => do
    let it := h.iterator ref
    let parts ← interiorAll false plain it.items.toList
    pure ("&\x7b[" ++ Text.join " " parts ++ "] " ++ toString it.position ++ "\x7d")
  | .exception ref => do
    let e := h.exception ref
    let name := (h.cls e.cls).name
    if e.args.isEmpty then pure name
    else
      let parts ← e.args.mapM (argumentText repr)
      pure (name ++ ": " ++ Text.join ", " parts)
  | .cls ref =>
    let c := h.cls ref
    some ("&\x7b" ++ c.name ++ (if c.ancestors.isEmpty then " <nil>\x7d" else " " ++ hidden ++ "\x7d"))
  | .builtin ref => some ("&\x7b" ++ (h.builtin ref).name ++ " " ++ hidden ++ "\x7d")
  | .function _ => some ("&\x7b" ++ hidden ++ "\x7d")
  | .routine ref => do
    let routine := h.routine ref
    let _ ← routine.constants.mapM plain
    pure (routineTextWith (fun v => (plain v).getD "") routine)
  | _ => none

/-- One layer of the plain form of a value that stands alone. -/
def plainLayer (h : Heap) (repr plain : Value → Option String) : Value → Option String
  | .list ref => objectPlain h repr plain (.list ref)
  | .record ref => objectPlain h repr plain (.record ref)
  | .iterator ref => objectPlain h repr plain (.iterator ref)
  | .cls ref => objectPlain h repr plain (.cls ref)
  | .builtin ref => objectPlain h repr plain (.builtin ref)
  | .function ref => objectPlain h repr plain (.function ref)
  | v => interior true (objectPlain h repr plain) v

/-- One layer of `repr` of an object. -/
def objectRepr (h : Heap) (repr : Value → Option String) : Value → Option String
  | .list ref => do
    let parts ← (h.list ref).toList.mapM repr
    pure ("[" ++ Text.join ", " parts ++ "]")
  | .exception ref => do
    let e := h.exception ref
    let parts ← e.args.mapM repr
    pure ((h.cls e.cls).name ++ "(" ++ Text.join ", " parts ++ ")")
  | .cls ref => some ("<class '" ++ (h.cls ref).name ++ "'>")
  | .builtin ref => some ("<built-in function " ++ (h.builtin ref).name ++ ">")
  | .function ref => some ("<function " ++ (h.functionRoutine ref).name ++ ">")
  | _ => none

mutual

def reprWithin (h : Heap) : Nat → Value → Option String
  | 0, _ => none
  | n + 1, v =>
    reprLayer (objectRepr h fun v => reprWithin h n v)
      (plainLayer h (fun v => reprWithin h n v) fun v => plainWithin h n v) v

def plainWithin (h : Heap) : Nat → Value → Option String
  | 0, _ => none
  | n + 1, v => plainLayer h (fun v => reprWithin h n v) (fun v => plainWithin h n v) v

end

/-- No more references than this are followed in a row, unless an object contains itself: every
object is met at most once in each of the two forms. -/
def followed (h : Heap) : Nat := 2 * h.size + 1

/-- A value as the guest prints it. -/
def repr? (h : Heap) (v : Value) : Option String := reprWithin h h.followed v

/-- A value as listings and messages show it. -/
def plain? (h : Heap) (v : Value) : Option String := plainWithin h h.followed v

def plain (h : Heap) (v : Value) : String := (h.plain? v).getD ""

/-- The text of an exception that nobody caught. -/
def message? (h : Heap) (exception : Nat) : Option String := h.plain? (.exception exception)

def message (h : Heap) (exception : Nat) : String := (h.message? exception).getD ""

def operationText (h : Heap) (o : Host.Operation) : String := operationTextWith h.plain o

def routineText (h : Heap) (r : Host.Routine) : String := routineTextWith h.plain r

end Lowering.Heap
