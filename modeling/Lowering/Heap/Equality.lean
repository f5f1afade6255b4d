import Lowering.Heap

/-!
Identity and equality of values. Equality of lists looks at their items, so it is given a bound
on how many pairs of lists it may enter in a row; it fails on lists that contain themselves.
-/

namespace Lowering.Heap

/-- The same value, or the same object. Tuples are never identical, not even to themselves. -/
def identical : Value → Value → Bool
  | .none, .none => true
  | .bool a, .bool b => a == b
  | .int a, .int b => a == b
  | .float a, .float b => a == b
  | .str a, .str b => a == b
  | .null, .null => true
  | .unbound, .unbound => true
  | .list a, .list b => a == b
  | .record a, .record b => a == b
  | .iterator a, .iterator b => a == b
  | .exception a, .exception b => a == b
  | .cls a, .cls b => a == b
  | .builtin a, .builtin b => a == b
  | .function a, .function b => a == b
  | .routine a, .routine b => a == b
  | .word a, .word b => a == b
  | .word32 a, .word32 b => a == b
  | .natural a, .natural b => a == b
  | .single a, .single b => a == b
  | .foreign kind a, .foreign other b => kind == other && a == b
  | _, _ => false

mutual

/-- One layer of equality: tuples are compared item by item, lists by `lists`. -/
def equalLayer (lists : Nat → Nat → Option Bool) : Value → Value → Option Bool
  | .int a, .float b => some (Float.ofInt a.toInt == b)
  | .float a, .int b => some (a == Float.ofInt b.toInt)
  | .tuple as, .tuple bs =>
    if as.length ≠ bs.length then some false else equalLayerAll lists as bs
  | .list a, .list b => if a == b then some true else lists a b
  | a, b => some (identical a b)

def equalLayerAll (lists : Nat → Nat → Option Bool) : List Value → List Value → Option Bool
  | [], [] => some true
  | a :: as, b :: bs =>
    match equalLayer lists a b with
    | some true => equalLayerAll lists as bs
    | other => other
  | _, _ => some false

end

def equalItems (equal : Value → Value → Option Bool) : List Value → List Value → Option Bool
  | [], [] => some true
  | a :: as, b :: bs =>
    match equal a b with
    | some true => equalItems equal as bs
    | other => other
  | _, _ => some false

def equalWithin (h : Heap) : Nat → Value → Value → Option Bool
  | 0, _, _ => none
  | n + 1, a, b =>
    equalLayer
      (fun i j =>
        let as := h.list i
        let bs := h.list j
        if as.size ≠ bs.size then some false
        else equalItems (fun a b => equalWithin h n a b) as.toList bs.toList)
      a b

/-- Whether two values are equal. -/
def equal? (h : Heap) (a b : Value) : Option Bool :=
  equalWithin h (h.lists.size * h.lists.size + 1) a b

end Lowering.Heap
