/-!
Run-time values. Scalars, tuples and the two sentinels are values of their own; everything that
can change or that has an identity is a reference into the heap. Constants may also be in a raw
form that execution first normalises: untyped sequences, routines and machine numbers.
-/

namespace Lowering

inductive Value
  | none
  | bool (b : Bool)
  | int (n : Int64)
  | float (x : Float)
  | str (s : String)
  | tuple (items : List Value)
  /-- Stands below a callable where a call sequence expects an empty method slot. -/
  | null
  /-- The content of a local that has no binding. -/
  | unbound
  | list (ref : Nat)
  | record (ref : Nat)
  | iterator (ref : Nat)
  | exception (ref : Nat)
  | cls (ref : Nat)
  | builtin (ref : Nat)
  | function (ref : Nat)
  /-- An untyped sequence, which becomes a tuple. -/
  | sequence (items : List Value)
  /-- A routine, which becomes a function. -/
  | routine (ref : Nat)
  /-- Numbers of other widths: the first two become integers, the last one a float. -/
  | word (n : Int64)
  | word32 (n : Int32)
  | natural (n : UInt64)
  | single (x : Float)
  /-- Data that the guest has no type for. Only the name of their kind and their text are seen. -/
  | foreign (kind text : String)
deriving Inhabited, Repr

namespace Value

/-- The text of a boolean in listings and messages. -/
def boolText (b : Bool) : String := if b then "true" else "false"

end Value
end Lowering
