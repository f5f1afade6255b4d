import Lowering.Heap.Text
import Lowering.Machine.Arithmetic
import Lowering.Machine.Fault

/-!
What helpers and built-in functions answer, and the built-in functions.
-/

namespace Lowering.Machine

/-- The answer of a helper. A call is carried out by the machine. -/
inductive Reply
  | values (results : List Value)
  | raised (exception : Nat)
  | failed (failure : Failure)
  | call (callee : Value) (args : List Value)

/-- What a built-in function from outside comes to. An error is not an exception of the guest; it
becomes one. -/
inductive Outcome
  | value (v : Value)
  | raised (exception : Nat)
  | error (text : String)

/-- A built-in function from outside sees the heap and its arguments, and may change the heap. -/
abbrev BuiltinFunction := Heap → List Value → Outcome × Heap

/-- Raises a new exception of a standard class. -/
def fail (h : Heap) (cls : Standard) (message : String) : Reply × Heap :=
  match h.newError cls message with
  | (ref, h) => (.raised ref, h)

def give (h : Heap) (v : Value) : Reply × Heap := (.values [v], h)

/-- A text that is missing because it would never end. -/
def giveText (h : Heap) : Option String → Reply × Heap
  | some text => give h (.str text)
  | none => (.failed .endless, h)

/-- The items of a progression. The running item wraps around at the ends of the 64-bit range, so
that a progression may never end; `fuel` bounds how often it is compared with the end. -/
def progressionWithin : Nat → Int64 → Int64 → Int64 → Array Value → Option (Array Value)
  | 0, _, _, _, _ => none
  | fuel + 1, i, stop, step, items =>
    if (0 < step && i < stop) || (step < 0 && stop < i) then
      progressionWithin fuel (i + step) stop step (items.push (.int i))
    else some items

/-- There are no more than 2 ^ 64 different items, so a progression that has not ended after as many
comparisons never ends. -/
def progression? (start stop step : Int64) : Option (Array Value) :=
  progressionWithin 0x10000000000000000 start stop step #[]

def integers? : List Value → Except Value (List Int64)
  | [] => .ok []
  | .int n :: rest =>
    match integers? rest with
    | .ok ns => .ok (n :: ns)
    | .error v => .error v
  | v :: _ => .error v

def range (h : Heap) (args : List Value) : Reply × Heap :=
  match integers? args with
  | .error v =>
    fail h .typeError s!"'{h.typeName v}' object cannot be interpreted as an integer"
  | .ok bounds =>
    let run (start stop step : Int64) : Reply × Heap :=
      if step == 0 then fail h .valueError "range() arg 3 must not be zero"
      else match progression? start stop step with
        | none => (.failed .endless, h)
        | some items =>
          match h.newList items with
          | (list, h) => give h list
    match bounds with
    | [stop] => run 0 stop 1
    | [start, stop] => run start stop 1
    | [start, stop, step] => run start stop step
    | _ => fail h .typeError s!"range expected 1 to 3 arguments, got {args.length}"

def len (h : Heap) : List Value → Reply × Heap
  | [v] =>
    match h.items? v with
    | some items => give h (.int (Int64.ofNat items.size))
    | none => fail h .typeError s!"object of type '{h.typeName v}' has no len()"
  | args => fail h .typeError s!"len() takes exactly one argument ({args.length} given)"

def str (h : Heap) : List Value → Reply × Heap
  | [.str s] => give h (.str s)
  | [.exception ref] =>
    giveText h (((h.exception ref).args.mapM h.plain?).map (Text.join ", "))
  | [v] => giveText h (h.repr? v)
  | args => fail h .typeError s!"str() takes exactly one argument ({args.length} given)"

def repr (h : Heap) : List Value → Reply × Heap
  | [v] => giveText h (h.repr? v)
  | args => fail h .typeError s!"repr() takes exactly one argument ({args.length} given)"

/-- The answer of a built-in function from outside: its value in normal form, or an exception. -/
def answer (h : Heap) (name : String) : Outcome → Reply × Heap
  | .value v =>
    match h.normalize v with
    | (v, h) => give h v
  | .raised exception => (.raised exception, h)
  | .error text => fail h .runtimeError s!"{name}: {text}"

/-- What a built-in function answers. -/
def act (custom : Nat → BuiltinFunction) (h : Heap) (name : String) (action : Action)
    (args : List Value) : Reply × Heap :=
  match action with
  | .len => len h args
  | .range => range h args
  | .str => str h args
  | .repr => repr h args
  | .append list =>
    give { h with lists := h.lists.modify list (· ++ args.toArray) } .none
  | .custom id =>
    match custom id h args with
    | (outcome, h) => answer h name outcome

/-- The names that every machine starts with. -/
def standardGlobals (h : Heap) : List (String × Value) × Heap :=
  let classes := h.classes.toList.take Standard.table.length |>.zipIdx.map fun (c, i) =>
    (c.name, Value.cls i)
  let builtins : List BuiltinObject := [⟨"len", .len⟩, ⟨"range", .range⟩, ⟨"str", .str⟩, ⟨"repr", .repr⟩]
  builtins.foldl (fun (globals, h) builtin =>
    match h.newBuiltin builtin with
    | (v, h) => ((builtin.name, v) :: globals, h)) (classes, h)

end Lowering.Machine
