import Lowering.Fault
import Lowering.Listing.Document

/-!
From listings to guest functions. Every function needs a version, offsets that increase, opcodes
that exist and constants that a function can carry.
-/

namespace Lowering.Listing
open Yaml

/-- Why a listed function cannot be built. -/
inductive FunctionFault
  | noVersion
  | notIncreasing (offset last : Int64)
  | unknownOpcode (offset : Int64) (name : String)
  | constantRange (index : Nat) (n : UInt64)
  | constantForm (index : Nat) (form : String)

/-- The same in the words of faults. -/
def FunctionFault.fault : FunctionFault → Fault
  | .noVersion => .plain "no guest version"
  | .notIncreasing offset last =>
    .invalid offset (.stated s!"offset not greater than previous offset {last.toInt}")
  | .unknownOpcode offset name => .invalid offset (.stated ("unknown opcode " ++ Text.quote name))
  | .constantRange index n => .plain s!"constant {index}: integer {n.toNat} out of range"
  | .constantForm index form => .plain s!"constant {index}: unsupported constant of type {form}"

/-- A fault in one of the functions of a listing. -/
structure BuildFault where
  index : Nat
  name : String
  cause : FunctionFault

def BuildFault.fault (f : BuildFault) : Fault :=
  .noted s!"function {f.index} ({f.name})" f.cause.fault

/-- The opcode that a listing names, in letters of any case and with blanks around it. -/
def opcode? (name : String) : Option Guest.Opcode := Guest.Opcode.ofName? (Text.capitals (Text.trim name))

/-- Builds the instructions from an index on, each offset being greater than the last. -/
def buildInstructions (last : Int64) : Nat → List Instruction → Except FunctionFault (List Guest.Instruction)
  | _, [] => .ok []
  | i, listed :: rest =>
    let offset := listed.offset.getD (Int64.ofNat (2 * i))
    if offset ≤ last then .error (.notIncreasing offset last)
    else match opcode? listed.op with
      | none => .error (.unknownOpcode offset listed.op)
      | some opcode =>
        match buildInstructions offset (i + 1) rest with
        | .error fault => .error fault
        | .ok rest => .ok (⟨offset, opcode.code, listed.arg, listed.line⟩ :: rest)

mutual

/-- A constant that a function can carry. Sequences become tuples later. -/
def constant (index : Nat) : Data → Except FunctionFault Value
  | .null => .ok .none
  | .bool b => .ok (.bool b)
  | .int n => .ok (.int n)
  | .float x => .ok (.float x)
  | .text s => .ok (.str s)
  | .natural n => .error (.constantRange index n)
  | .sequence items => (constantItems index items).map .sequence
  | d => .error (.constantForm index d.form)

def constantItems (index : Nat) : List Data → Except FunctionFault (List Value)
  | [] => .ok []
  | d :: rest =>
    match constant index d with
    | .error fault => .error fault
    | .ok v => (constantItems index rest).map (v :: ·)

end

def buildConstants : Nat → List Data → Except FunctionFault (List Value)
  | _, [] => .ok []
  | i, d :: rest =>
    match constant i d with
    | .error fault => .error fault
    | .ok v => (buildConstants (i + 1) rest).map (v :: ·)

/-- The first of the versions that says something. -/
def chosenVersion (override own shared : Version) : Version :=
  if !override.isZero then override else if !own.isZero then own else shared

/-- Builds a function for a version. -/
def Function.build (f : Function) (version : Version) : Except FunctionFault Guest.Function :=
  if version.isZero then .error .noVersion
  else match buildInstructions (-1) 0 f.instructions with
    | .error fault => .error fault
    | .ok instructions =>
      match buildConstants 0 f.constants with
      | .error fault => .error fault
      | .ok constants =>
        let fn : Guest.Function :=
          { name := f.name, filename := f.filename, firstLine := f.firstLine, version
            argCount := f.args, instructions := instructions.toArray
            constants := constants.toArray, names := f.names.toArray
            localNames := f.locals.toArray, table := f.table }
        .ok fn.sorted

def buildFrom (override shared : Version) : Nat → List Function → Except BuildFault (List Guest.Function)
  | _, [] => .ok []
  | i, f :: rest =>
    match f.build (chosenVersion override f.version shared) with
    | .error cause => .error ⟨i, f.name, cause⟩
    | .ok fn => (buildFrom override shared (i + 1) rest).map (fn :: ·)

/-- Builds the functions of a listing. A version other than zero replaces those of the listing. -/
def Document.build (d : Document) (override : Version) : Except BuildFault (List Guest.Function) :=
  buildFrom override d.version 0 d.functions

end Lowering.Listing
