import Lowering.Host.Routine
import Lowering.Text.Stray

/-!
The heap: everything that can change or that has an identity. There is one table per sort of
object, and a reference is an index into it. Nothing is ever removed, so that two references are
the same object exactly when they are the same number.
-/

namespace Lowering

/-- An exception class. Classes form a tree. -/
structure ClassObject where
  name : String
  /-- The classes it derives from, the nearest first. -/
  ancestors : List Nat := []
deriving Inhabited, Repr

structure ExceptionObject where
  cls : Nat
  args : List Value := []
  cause : Option Nat := none
  /-- The guest offsets that the exception passed through, the innermost first. -/
  traceback : Array Int64 := #[]
  /-- The guest offset of the instruction that raised it, or -1. -/
  lasti : Int64 := -1
deriving Inhabited, Repr

structure RecordObject where
  name : String
  attrs : List (String × Value) := []
deriving Inhabited, Repr

structure IteratorObject where
  items : Array Value
  position : Nat := 0
deriving Inhabited, Repr

/-- What a built-in function does. -/
inductive Action
  | len | range | str | repr
  /-- Adds its arguments to a list. -/
  | append (list : Nat)
  /-- What the program that runs the machine supplies under this number. -/
  | custom (id : Nat)
deriving Inhabited, Repr

structure BuiltinObject where
  name : String
  action : Action
deriving Inhabited, Repr

/-- The classes that every machine knows. -/
inductive Standard
  | baseException | exception | arithmeticError | zeroDivisionError | lookupError | indexError
  | keyError | nameError | unboundLocalError | attributeError | typeError | valueError
  | runtimeError | stopIteration | recursionError
deriving DecidableEq, Repr

namespace Standard

/-- Name and ancestors of every standard class. The position is its reference. -/
def table : List (Standard × ClassObject) :=
  [(baseException, ⟨"BaseException", []⟩),
   (exception, ⟨"Exception", [0]⟩),
   (arithmeticError, ⟨"ArithmeticError", [1, 0]⟩),
   (zeroDivisionError, ⟨"ZeroDivisionError", [2, 1, 0]⟩),
   (lookupError, ⟨"LookupError", [1, 0]⟩),
   (indexError, ⟨"IndexError", [4, 1, 0]⟩),
   (keyError, ⟨"KeyError", [4, 1, 0]⟩),
   (nameError, ⟨"NameError", [1, 0]⟩),
   (unboundLocalError, ⟨"UnboundLocalError", [7, 1, 0]⟩),
   (attributeError, ⟨"AttributeError", [1, 0]⟩),
   (typeError, ⟨"TypeError", [1, 0]⟩),
   (valueError, ⟨"ValueError", [1, 0]⟩),
   (runtimeError, ⟨"RuntimeError", [1, 0]⟩),
   (stopIteration, ⟨"StopIteration", [1, 0]⟩),
   (recursionError, ⟨"RecursionError", [12, 1, 0]⟩)]

def ref : Standard → Nat
  | baseException => 0
  | exception => 1
  | arithmeticError => 2
  | zeroDivisionError => 3
  | lookupError => 4
  | indexError => 5
  | keyError => 6
  | nameError => 7
  | unboundLocalError => 8
  | attributeError => 9
  | typeError => 10
  | valueError => 11
  | runtimeError => 12
  | stopIteration => 13
  | recursionError => 14

end Standard

structure Heap where
  lists : Array (Array Value) := #[]
  records : Array RecordObject := #[]
  iterators : Array IteratorObject := #[]
  exceptions : Array ExceptionObject := #[]
  classes : Array ClassObject := (Standard.table.map Prod.snd).toArray
  builtins : Array BuiltinObject := #[]
  /-- A function is a routine with an identity of its own. -/
  functions : Array Nat := #[]
  routines : Array Host.Routine := #[]

instance : Inhabited Heap := ⟨{}⟩

namespace Heap

def newList (h : Heap) (items : Array Value) : Value × Heap :=
  (.list h.lists.size, { h with lists := h.lists.push items })

def newRecord (h : Heap) (record : RecordObject) : Value × Heap :=
  (.record h.records.size, { h with records := h.records.push record })

def newIterator (h : Heap) (items : Array Value) : Value × Heap :=
  (.iterator h.iterators.size, { h with iterators := h.iterators.push ⟨items, 0⟩ })

def newBuiltin (h : Heap) (builtin : BuiltinObject) : Value × Heap :=
  (.builtin h.builtins.size, { h with builtins := h.builtins.push builtin })

def newFunction (h : Heap) (routine : Nat) : Value × Heap :=
  (.function h.functions.size, { h with functions := h.functions.push routine })

def newRoutine (h : Heap) (routine : Host.Routine) : Nat × Heap :=
  (h.routines.size, { h with routines := h.routines.push routine })

/-- A class deriving from another one, if given. -/
def newClass (h : Heap) (name : String) (base : Option Nat) : Nat × Heap :=
  let ancestors := match base with
    | none => []
    | some base => base :: (h.classes.getD base default).ancestors
  (h.classes.size, { h with classes := h.classes.push ⟨name, ancestors⟩ })

def newException (h : Heap) (object : ExceptionObject) : Nat × Heap :=
  (h.exceptions.size, { h with exceptions := h.exceptions.push object })

/-- A new exception of a standard class with a message. -/
def newError (h : Heap) (cls : Standard) (message : String) : Nat × Heap :=
  h.newException { cls := cls.ref, args := [.str message] }

def list (h : Heap) (ref : Nat) : Array Value := h.lists.getD ref #[]

def record (h : Heap) (ref : Nat) : RecordObject := h.records.getD ref default

def iterator (h : Heap) (ref : Nat) : IteratorObject := h.iterators.getD ref default

def exception (h : Heap) (ref : Nat) : ExceptionObject := h.exceptions.getD ref default

def cls (h : Heap) (ref : Nat) : ClassObject := h.classes.getD ref default

def builtin (h : Heap) (ref : Nat) : BuiltinObject := h.builtins.getD ref default

/-- The routine of a function. -/
def functionRoutine (h : Heap) (ref : Nat) : Host.Routine :=
  h.routines.getD (h.functions.getD ref 0) default

def routine (h : Heap) (ref : Nat) : Host.Routine := h.routines.getD ref default

/-- A class is itself or one of its descendants. -/
def isSubclass (h : Heap) (c ancestor : Nat) : Bool :=
  c == ancestor || (h.cls c).ancestors.contains ancestor

/-- The number of objects that may refer to others. -/
def size (h : Heap) : Nat :=
  h.lists.size + h.records.size + h.iterators.size + h.exceptions.size + h.routines.size

/-- The name that the guest knows the type of a value by. -/
def typeName (h : Heap) : Value → String
  | .none => "NoneType"
  | .bool _ => "bool"
  | .int _ => "int"
  | .float _ => "float"
  | .str _ => "str"
  | .tuple _ => "tuple"
  | .list _ => "list"
  | .record ref => (h.record ref).name
  | .builtin _ | .function _ => "function"
  | .cls _ => "type"
  | .exception ref => (h.cls (h.exception ref).cls).name
  | .iterator _ => "iterator"
  | .null => "host.nullValue"
  | .unbound => "vm.unbound"
  | .sequence _ => "[]interface {}"
  | .routine _ => "*host.Routine"
  | .word _ => "int"
  | .word32 _ => "int32"
  | .natural _ => "uint64"
  | .single _ => "float32"
  | .foreign kind _ => kind

/-- Whether a value counts as true. -/
def truthy (h : Heap) : Value → Bool
  | .none => false
  | .bool b => b
  | .int n => n != 0
  | .float x => x != 0
  | .str s => s != ""
  | .tuple items => !items.isEmpty
  | .list ref => !(h.list ref).isEmpty
  | _ => true

/-- The items of a value that can be iterated over. -/
def items? (h : Heap) : Value → Option (Array Value)
  | .tuple items => some items.toArray
  | .list ref => some (h.list ref)
  | .str s =>
    some ((Text.runes s).map fun r => .str (Text.kept (String.singleton r.shown))).toArray
  | _ => none

mutual

/-- Turns a raw constant into a run-time value. Every routine becomes a new function. -/
def normalize (h : Heap) : Value → Value × Heap
  | .word n => (.int n, h)
  | .word32 n => (.int n.toInt64, h)
  | .single x => (.float x, h)
  | .sequence items =>
    match normalizeAll h items with
    | (items, h) => (.tuple items, h)
  | .routine ref => h.newFunction ref
  | v => (v, h)

def normalizeAll (h : Heap) : List Value → List Value × Heap
  | [] => ([], h)
  | v :: rest =>
    match normalize h v with
    | (v, h) =>
      match normalizeAll h rest with
      | (rest, h) => (v :: rest, h)

end

end Heap
end Lowering
