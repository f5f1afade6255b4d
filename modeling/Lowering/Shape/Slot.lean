import Lowering.Decimal.Layout
import Lowering.Text.Quoted
import Lowering.Value

/-!
The abstract content of one stack position or local: a kind, the known value of a constant, and
the handler region that owns the position. Slots that meet where control joins are merged; stack
slots may refuse to merge, locals never do.
-/

namespace Lowering.Shape

inductive Kind
  /-- A local that is not assigned on some path. -/
  | unbound
  | object | int | float | bool | str | none
  /-- The sentinel below a callable. -/
  | null
  | tuple | list | iterator
  /-- The three parts of a legacy exception. -/
  | excType | excValue | excTraceback
  /-- A modern exception, the one that was handled before it, and the raising offset. -/
  | exception | prevException | lasti
  /-- A number that names no kind. -/
  | other (code : UInt8)
deriving DecidableEq, Repr, Inhabited

namespace Kind

/-- The named kinds, in the order of their numbers. -/
def named : List (Kind × String) :=
  [(unbound, "unbound"), (object, "object"), (int, "int"), (float, "float"), (bool, "bool"),
    (str, "str"), (none, "none"), (null, "null"), (tuple, "tuple"), (list, "list"),
    (iterator, "iterator"), (excType, "exc_type"), (excValue, "exc_value"),
    (excTraceback, "exc_traceback"), (exception, "exception"), (prevException, "prev_exception"),
    (lasti, "lasti")]

def ofCode (code : UInt8) : Kind :=
  match named[code.toNat]? with
  | some (kind, _) => kind
  | Option.none => other code

def ofName? (name : String) : Option Kind := (named.find? (·.2 == name)).map (·.1)

def text (kind : Kind) : String :=
  match kind with
  | other code => s!"kind({code})"
  | kind => ((named.find? (·.1 == kind)).map (·.2)).getD ""

/-- State that belongs to a handler and never widens. -/
def isExceptionState : Kind → Bool
  | excType | excValue | excTraceback | exception | prevException | lasti => true
  | _ => false

/-- Kinds that merge with each other into `object`. -/
def widens : Kind → Bool
  | object | int | float | bool | str | none | tuple | list | iterator => true
  | _ => false

end Kind

/-- The value of a constant, as far as it is remembered. -/
inductive Known
  | bool (b : Bool)
  | int (n : Int64)
  | float (x : Float)
  | str (s : String)
  /-- Any other value; only its text is kept. -/
  | other (text : String)
deriving DecidableEq

namespace Known

def text : Known → String
  | bool b => Value.boolText b
  | int n => toString n.toInt
  | float x => Decimal.text x
  | str s => Text.quote s
  | other text => text

/-- Known values agree when they compare equal: NaN differs from itself, and so does a value of
which only the text is kept. -/
def agrees : Known → Known → Bool
  | bool a, bool b => a == b
  | int a, int b => a == b
  | float a, float b => a == b
  | str a, str b => a == b
  | _, _ => false

end Known

def agree : Option Known → Option Known → Bool
  | none, none => true
  | some a, some b => a.agrees b
  | _, _ => false

structure Slot where
  kind : Kind
  known : Option Known := none
  /-- The number of the handler region that owns the slot, or zero. -/
  region : Int64 := 0
deriving DecidableEq

instance : Inhabited Slot := ⟨⟨.unbound, none, 0⟩⟩

namespace Slot

/-- A slot of a kind that no region owns. -/
def ofKind (kind : Kind) : Slot := ⟨kind, none, 0⟩

def owned (kind : Kind) (region : Int64) : Slot := ⟨kind, none, region⟩

/-- The slot of a constant. Scalars are remembered. -/
def ofConstant : Value → Slot
  | .none => ofKind .none
  | .bool b => ⟨.bool, some (.bool b), 0⟩
  | .int n => ⟨.int, some (.int n), 0⟩
  | .word n => ⟨.int, some (.int n), 0⟩
  | .float x => ⟨.float, some (.float x), 0⟩
  | .str s => ⟨.str, some (.str s), 0⟩
  | .sequence _ => ofKind .tuple
  | _ => ofKind .object

def untagged (s : Slot) : Slot := { s with region := 0 }

def isTagged (s : Slot) : Bool := s.region != 0

/-- Two slots describe the same thing. -/
def same (a b : Slot) : Bool := a.kind == b.kind && a.region == b.region && agree a.known b.known

def text (s : Slot) : String :=
  let known := match s.known with
    | none => ""
    | some known => "=" ++ known.text
  let owner := if s.region == 0 then "" else s!"(r{s.region.toInt})"
  s.kind.text ++ known ++ owner

/-- The slot, without its known value when the other one disagrees. -/
def forget (a b : Slot) : Slot := if agree a.known b.known then a else { a with known := none }

/-- Merges two stack slots. Slots that differ merge only when both widen and neither is owned. -/
def merge? (a b : Slot) : Option Slot :=
  if a.kind == b.kind && a.region == b.region then some (a.forget b)
  else if a.kind.widens && b.kind.widens && a.region == 0 && b.region == 0 then
    some (ofKind .object)
  else none

/-- Merges two locals: an unbound side makes the result unbound. -/
def mergeLocal (a b : Slot) : Slot :=
  if a.kind == b.kind && a.region == b.region then a.forget b
  else if a.kind == .unbound || b.kind == .unbound then ofKind .unbound
  else ofKind .object

end Slot
end Lowering.Shape
