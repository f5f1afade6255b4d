import Lowering.Guest.Operator
import Lowering.Heap.Equality
import Lowering.Machine.Builtins

/-!
The run-time helpers that every machine brings along.
-/

namespace Lowering.Machine
open Guest

/-- Arithmetic on integers. -/
def integerOperation (h : Heap) (operator : Arithmetic) (x y : Int64) : Reply × Heap :=
  match operator with
  | .add => give h (.int (x + y))
  | .subtract => give h (.int (x - y))
  | .multiply => give h (.int (x * y))
  | .bitAnd => give h (.int (x &&& y))
  | .bitOr => give h (.int (x ||| y))
  | .bitXor => give h (.int (x ^^^ y))
  | .leftShift =>
    if y < 0 then fail h .valueError "negative shift count" else give h (.int (shiftLeft x y))
  | .rightShift =>
    if y < 0 then fail h .valueError "negative shift count" else give h (.int (shiftRight x y))
  | .floorDivide =>
    if y == 0 then fail h .zeroDivisionError "integer division or modulo by zero"
    else give h (.int (floorDivMod x y).1)
  | .remainder =>
    if y == 0 then fail h .zeroDivisionError "integer division or modulo by zero"
    else give h (.int (floorDivMod x y).2)
  | .trueDivide =>
    if y == 0 then fail h .zeroDivisionError "division by zero"
    else give h (.float (toFloat x / toFloat y))
  | .power =>
    if y < 0 then give h (.float (floatPower (toFloat x) (toFloat y)))
    else give h (.int (power x y.toInt.toNat))

/-- Arithmetic on floats, or on a float and an integer. -/
def floatOperation (h : Heap) (code : Int64) (x y : Float) : Reply × Heap :=
  match Arithmetic.ofCode? code with
  | some .add => give h (.float (x + y))
  | some .subtract => give h (.float (x - y))
  | some .multiply => give h (.float (x * y))
  | some .trueDivide =>
    if y == 0 then fail h .zeroDivisionError "float division by zero" else give h (.float (x / y))
  | some .floorDivide =>
    if y == 0 then fail h .zeroDivisionError "float floor division by zero"
    else give h (.float (x / y).floor)
  | some .remainder =>
    if y == 0 then fail h .zeroDivisionError "float modulo"
    else give h (.float (x - y * (x / y).floor))
  | some .power => give h (.float (floatPower x y))
  | _ =>
    fail h .typeError
      s!"unsupported operand type(s) for {Arithmetic.operandText code}: 'float' and 'float'"

/-- An operator on two values. The in-place form of addition extends a list. -/
def binaryOperation (h : Heap) (operand : Int64) (a b : Value) : Reply × Heap :=
  let inPlace : Bool := operand.toInt ≥ 13
  let code := if inPlace then operand - Arithmetic.inPlace else operand
  let operator := Arithmetic.ofCode? code
  let unsupported : Reply × Heap :=
    fail h .typeError
      s!"unsupported operand type(s) for {Arithmetic.operandText code}: '{h.typeName a}' and '{h.typeName b}'"
  match a, b with
  | .int x, .int y =>
    match operator with
    | some operator => integerOperation h operator x y
    | none => fail h .typeError s!"unsupported operator {code.toInt}"
  | .int x, .float y => floatOperation h code (toFloat x) y
  | .float x, .int y => floatOperation h code x (toFloat y)
  | .float x, .float y => floatOperation h code x y
  | .str x, .str y => if operator == some .add then give h (.str (Text.append x y)) else unsupported
  | .str x, .int y =>
    if operator == some .multiply && 0 ≤ y then give h (.str (Text.repeated x y.toInt.toNat))
    else unsupported
  | .tuple x, .tuple y =>
    if operator == some .add then give h (.tuple (x ++ y)) else unsupported
  | .list x, .list y =>
    if operator == some .add then
      if inPlace then
        let added := h.list y
        give { h with lists := h.lists.modify x (· ++ added) } (.list x)
      else match h.newList (h.list x ++ h.list y) with
        | (list, h) => give h list
    else unsupported
  | _, _ => unsupported

/-- A number, as ordered comparisons see it. -/
def numeric? : Value → Option Float
  | .int n => some (toFloat n)
  | .float x => some x
  | .bool b => some (if b then 1 else 0)
  | _ => none

/-- The order of two values: both numbers, or both texts. -/
def order? (a b : Value) : Option Ordering :=
  match numeric? a, numeric? b with
  | some x, some y => some (if x < y then .lt else if x > y then .gt else .eq)
  | _, _ =>
    match a, b with
    | .str x, .str y => some (Text.order x y)
    | _, _ => none

/-- The symbol of a comparison in messages. -/
def comparisonText (operand : Int64) : String := Comparison.operandText operand

def compare (h : Heap) (operand : Int64) (a b : Value) : Reply × Heap :=
  let comparison := Comparison.ofCode? operand
  let test (holds : Ordering → Bool) : Reply × Heap :=
    match order? a b with
    | some ordering => give h (.bool (holds ordering))
    | none =>
      fail h .typeError
        s!"'{comparisonText operand}' not supported between instances of '{h.typeName a}' and '{h.typeName b}'"
  match comparison with
  | some .equal =>
    match h.equal? a b with
    | some equal => give h (.bool equal)
    | none => (.failed .endless, h)
  | some .notEqual =>
    match h.equal? a b with
    | some equal => give h (.bool !equal)
    | none => (.failed .endless, h)
  | some .less => test (· == .lt)
  | some .lessOrEqual => test (· != .gt)
  | some .greater => test (· == .gt)
  | some .greaterOrEqual => test (· != .lt)
  | none =>
    match order? a b with
    | some _ => fail h .typeError s!"unsupported comparison {operand.toInt}"
    | none => test fun _ => false

/-- Whether an item of a list is equal to a value; the items are tried in order. -/
def holds? (h : Heap) (needle : Value) : List Value → Option Bool
  | [] => some false
  | item :: rest =>
    match h.equal? item needle with
    | none => none
    | some true => some true
    | some false => holds? h needle rest

/-- Membership; `negated` asks for the opposite. -/
def contains (h : Heap) (negated : Bool) (needle container : Value) : Reply × Heap :=
  match container with
  | .str s =>
    match needle with
    | .str sub => give h (.bool (Text.isSubtextOf sub s != negated))
    | _ =>
      fail h .typeError
        s!"'in <string>' requires string as left operand, not {h.typeName needle}"
  | _ =>
    match h.items? container with
    | none => fail h .typeError s!"argument of type '{h.typeName container}' is not iterable"
    | some items =>
      match holds? h needle items.toList with
      | some found => give h (.bool (found != negated))
      | none => (.failed .endless, h)

def negative (h : Heap) : Value → Reply × Heap
  | .int n => give h (.int (-n))
  | .float x => give h (.float (-x))
  | .bool b => give h (.int (if b then -1 else 0))
  | v => fail h .typeError s!"bad operand type for unary -: '{h.typeName v}'"

/-- The exception that a raised value stands for. -/
def asException (h : Heap) : Value → Nat × Heap
  | .exception ref => (ref, h)
  | .cls ref => h.newException { cls := ref }
  | .none => h.newError .runtimeError "No active exception to reraise"
  | v =>
    h.newError .typeError s!"exceptions must derive from BaseException, not {h.typeName v}"

/-- An attribute of a value, or the message of the failure. -/
def attribute? (h : Heap) (obj : Value) (name : String) : Except String (Value × Heap) :=
  let missing := Except.error s!"'{h.typeName obj}' object has no attribute '{name}'"
  match obj with
  | .record ref =>
    match (h.record ref).attrs.find? (·.1 == name) with
    | some (_, v) => .ok (v, h)
    | none => missing
  | .exception ref =>
    if name == "args" then .ok (.tuple (h.exception ref).args, h)
    else if name == "__cause__" then
      match (h.exception ref).cause with
      | some cause => .ok (.exception cause, h)
      | none => .ok (.none, h)
    else missing
  | .cls ref => if name == "__name__" then .ok (.str (h.cls ref).name, h) else missing
  | .list ref =>
    if name == "append" then .ok (h.newBuiltin ⟨"append", .append ref⟩) else missing
  | _ => missing

/-- Sets an entry of an association list. -/
def insertEntry (name : String) (v : Value) : List (String × Value) → List (String × Value)
  | [] => [(name, v)]
  | (key, old) :: rest =>
    if key == name then (key, v) :: rest else (key, old) :: insertEntry name v rest

def setAttribute (h : Heap) (name : String) (v obj : Value) : Reply × Heap :=
  match obj with
  | .record ref =>
    let records := h.records.modify ref fun r => { r with attrs := insertEntry name v r.attrs }
    (.values [], { h with records })
  | _ => fail h .attributeError s!"'{h.typeName obj}' object attribute '{name}' is read-only"

def iterate (h : Heap) (v : Value) : Reply × Heap :=
  match v with
  | .iterator ref => give h (.iterator ref)
  | _ =>
    match h.items? v with
    | some items =>
      match h.newIterator items with
      | (it, h) => give h it
    | none => fail h .typeError s!"'{h.typeName v}' object is not iterable"

/-- The next item and whether there was one. -/
def advance (h : Heap) : Value → Reply × Heap
  | .iterator ref =>
    let it := h.iterator ref
    match it.items[it.position]? with
    | some item =>
      let iterators := h.iterators.modify ref fun it => { it with position := it.position + 1 }
      (.values [item, .bool true], { h with iterators })
    | none => (.values [.none, .bool false], h)
  | v => fail h .typeError s!"'{h.typeName v}' object is not an iterator"

mutual

/-- Whether a class derives from a target, which is a class or a tuple of targets. The error is
the part of the target that is neither. -/
def matchesClass (h : Heap) (cls : Nat) : Value → Except Value Bool
  | .cls target => .ok (h.isSubclass cls target)
  | .tuple targets => matchesAny h cls targets
  | v => .error v

def matchesAny (h : Heap) (cls : Nat) : List Value → Except Value Bool
  | [] => .ok false
  | target :: rest =>
    match matchesClass h cls target with
    | .ok false => matchesAny h cls rest
    | other => other

end

def exceptionMatches (h : Heap) (v target : Value) : Reply × Heap :=
  let test (cls : Nat) : Reply × Heap :=
    match matchesClass h cls target with
    | .ok result => give h (.bool result)
    | .error v => fail h .typeError s!"catching {h.typeName v} is not allowed"
  match v with
  | .exception ref => test (h.exception ref).cls
  | .cls ref => test ref
  | v => fail h .typeError s!"cannot match {h.typeName v} against an exception class"

/-- A raised value with its cause. -/
def makeFrom (h : Heap) (v cause : Value) : Reply × Heap :=
  match asException h v with
  | (ref, h) =>
    match cause with
    | .none => give h (.exception ref)
    | cause =>
      match asException h cause with
      | (cause, h) =>
        let exceptions := h.exceptions.modify ref fun e => { e with cause := some cause }
        give { h with exceptions } (.exception ref)

/-- The call that the modern call sequence asks for: a callable above or below the sentinel, or
a method and its receiver. -/
def methodCall (a b : Value) (rest : List Value) : Reply :=
  match a, b with
  | .null, callee => .call callee rest
  | callee, .null => .call callee rest
  | callee, receiver => .call callee (receiver :: rest)

open Host in
/-- The answer of a standard helper to its arguments, the lowest first. -/
def standardHelper (h : Heap) (inv : Invocation) (args : List Value) : Reply × Heap :=
  match inv.helper, args with
  | .unaryNot, a :: _ => give h (.bool !(h.truthy a))
  | .unaryNegative, a :: _ => negative h a
  | .binaryOp, a :: b :: _ => binaryOperation h inv.arg a b
  | .compare, a :: b :: _ => compare h inv.arg a b
  | .is, a :: b :: _ => give h (.bool (Heap.identical a b != (inv.arg != 0)))
  | .contains, a :: b :: _ => contains h (inv.arg != 0) a b
  | .isTrue, a :: _ => give h (.bool (h.truthy a))
  | .buildTuple, args => give h (.tuple args)
  | .buildList, args =>
    match h.newList args.toArray with
    | (list, h) => give h list
  | .call, a :: rest => (.call a rest, h)
  | .callMethod, a :: b :: rest => (methodCall a b rest, h)
  | .getAttr, a :: _ =>
    match attribute? h a inv.name with
    | .ok (v, h) => give h v
    | .error text => fail h .attributeError text
  | .getMethod, a :: _ =>
    match attribute? h a inv.name with
    | .ok (v, h) => (.values [.null, v], h)
    | .error text => fail h .attributeError text
  | .setAttr, a :: b :: _ => setAttribute h inv.name a b
  | .getIter, a :: _ => iterate h a
  | .iterNext, a :: _ => advance h a
  | .exceptionType, a :: _ =>
    match asException h a with
    | (ref, h) => give h (.cls (h.exception ref).cls)
  | .exceptionTraceback, a :: _ =>
    match asException h a with
    | (ref, h) => give h (.tuple ((h.exception ref).traceback.toList.map Value.int))
  | .excMatches, a :: b :: _ => exceptionMatches h a b
  | .makeException, a :: _ =>
    match asException h a with
    | (ref, h) => give h (.exception ref)
  | .makeExceptionFrom, a :: b :: _ => makeFrom h a b
  | .excLasti, a :: _ =>
    match asException h a with
    | (ref, h) => give h (.int (h.exception ref).lasti)
  | .other name, _ => (.failed (.unknownHelper name), h)
  | helper, _ => (.failed (.missingArguments helper.name), h)

end Lowering.Machine
