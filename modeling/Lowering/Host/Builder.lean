import Lowering.Host.Routine

/-!
Building a routine operation by operation. An operation inherits the origin and the protection
that are in force when it is emitted; runs with the same protection become one region.
-/

namespace Lowering.Host

structure Protection where
  handler : Label
  depth : Int64
deriving DecidableEq, Repr

/-- An operation with what was in force when it was emitted. -/
structure Emitted where
  operation : Operation
  origin : Int64
  protection : Option Protection

structure Builder where
  name : String
  localCount : Int64
  emitted : Array Emitted := #[]
  origin : Int64 := 0
  protection : Option Protection := none
  nextLabel : Label := -1

namespace Builder

def start (name : String) (localCount : Int64) : Builder := { name, localCount }

def emitOne (b : Builder) (operation : Operation) : Builder :=
  { b with emitted := b.emitted.push ⟨operation, b.origin, b.protection⟩ }

def emit (b : Builder) (operations : List Operation) : Builder := operations.foldl emitOne b

/-- A label that no earlier call returned. -/
def newLabel (b : Builder) : Label × Builder := (b.nextLabel, { b with nextLabel := b.nextLabel - 1 })

def setOrigin (b : Builder) (offset : Int64) : Builder := { b with origin := offset }

def protect (b : Builder) (handler : Label) (depth : Int64) : Builder :=
  { b with protection := some ⟨handler, depth⟩ }

def unprotect (b : Builder) : Builder := { b with protection := none }

def reserveLocals (b : Builder) (n : Int64) : Builder :=
  if b.localCount < n then { b with localCount := n } else b

def size (b : Builder) : Nat := b.emitted.size

/-- The maximal runs of equal protections, each with its bounds, starting at an index. -/
def runs (index : Nat) : List (Option Protection) → List (Nat × Nat × Option Protection)
  | [] => []
  | p :: rest =>
    match runs (index + 1) rest with
    | (first, last, q) :: more =>
      if p = q then (index, last, p) :: more
      else (index, index + 1, p) :: (first, last, q) :: more
    | [] => [(index, index + 1, p)]

/-- The regions of the runs that are protected. -/
def regions (protections : List (Option Protection)) : List Protected :=
  (runs 0 protections).filterMap fun
    | (first, last, some p) => some ⟨Int64.ofNat first, Int64.ofNat last, p.handler, p.depth⟩
    | (_, _, none) => none

def build (b : Builder) : Routine where
  name := b.name
  localCount := b.localCount
  ops := b.emitted.map Emitted.operation
  origins := b.emitted.map Emitted.origin
  regions := regions (b.emitted.toList.map Emitted.protection)

end Builder
end Lowering.Host
