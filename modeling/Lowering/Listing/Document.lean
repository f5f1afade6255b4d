import Lowering.Guest.Function
import Lowering.Yaml.Data

/-!
Listings: guest functions written down as YAML. Only the form of a listing is checked when it is
read; whether its instructions make sense is for building to find out.
-/

namespace Lowering.Listing
open Yaml

/-- A listed instruction. Without an offset it stands two after the one before. -/
structure Instruction where
  offset : Option Int64 := none
  op : String := ""
  arg : Int64 := 0
  line : Int64 := 0

structure Function where
  name : String := ""
  filename : String := ""
  firstLine : Int64 := 0
  version : Version := .zero
  args : Int64 := 0
  locals : List String := []
  names : List String := []
  constants : List Data := []
  instructions : List Instruction := []
  table : List Guest.TableEntry := []

structure Document where
  /-- The version of the functions that state none. -/
  version : Version := .zero
  functions : List Function := []

/-- A version as text, or by its two numbers. -/
def version : Node → Reading (Option Version) :=
  follow fun
    | .mapping _ _ entries =>
      fieldsOf "version.Version" Version.zero (fun
        | "major" => some (into number fun v n => { v with major := n })
        | "minor" => some (into number fun v n => { v with minor := n })
        | _ => none) entries
    | n =>
      scalarAs "version.Version" (fun _ text => match Version.parse text with
        | .ok v => .ok (some v)
        | .error fault => .error (.refused fault.message)) n

def instruction : Node → Reading (Option Instruction) :=
  structured "listing.Instruction" {} fun
    | "offset" => some (into optionalNumber fun i n => { i with offset := n })
    | "op" => some (into text fun i s => { i with op := s })
    | "arg" => some (into number fun i n => { i with arg := n })
    | "line" => some (into number fun i n => { i with line := n })
    | _ => none

def tableEntry : Node → Reading (Option Guest.TableEntry) :=
  structured "bytecode.ExceptionTableEntry" ⟨0, 0, 0, 0, false⟩ fun
    | "start" => some (into number fun e n => { e with start := n })
    | "end" => some (into number fun e n => { e with stop := n })
    | "target" => some (into number fun e n => { e with target := n })
    | "depth" => some (into number fun e n => { e with depth := n })
    | "lasti" => some (into truth fun e b => { e with lasti := b })
    | _ => none

def function : Node → Reading (Option Function) :=
  structured "listing.Function" {} fun
    | "name" => some (into text fun f s => { f with name := s })
    | "filename" => some (into text fun f s => { f with filename := s })
    | "first_line" => some (into number fun f n => { f with firstLine := n })
    | "version" => some (into version fun f v => { f with version := v })
    | "args" => some (into number fun f n => { f with args := n })
    | "locals" => some (into (listOf "[]string" text) fun f l => { f with locals := l })
    | "names" => some (into (listOf "[]string" text) fun f l => { f with names := l })
    | "constants" =>
      some (into (listOf "[]interface {}" data) fun f l => { f with constants := l })
    | "instructions" =>
      some (into (listOf "[]listing.Instruction" instruction) fun f l => { f with instructions := l })
    | "exception_table" =>
      some (into (listOf "[]bytecode.ExceptionTableEntry" tableEntry) fun f l => { f with table := l })
    | _ => none

def document (n : Node) : Reading Document := do
  let d ← structured "listing.Document" {} (fun
    | "version" => some (into version fun d v => { d with version := v })
    | "functions" =>
      some (into (listOf "[]listing.Function" function) fun d l => { d with functions := l })
    | _ => none) n
  pure (d.getD {})

/-- Why a text is no listing. -/
inductive ReadFault
  | empty
  | malformed
  | refused (text : String)
  | mismatched (reports : List String)

def ReadFault.message : ReadFault → String
  | .empty => "empty listing"
  | .malformed => "parse listing"
  | .refused text => "parse listing: " ++ text
  | .mismatched reports => "parse listing: " ++ reportText reports

/-- Reads a listing from the bytes of a file. -/
def Document.read (source : List UInt8) : Except ReadFault Document :=
  match readAs document source with
  | .value d => .ok d
  | .empty => .error .empty
  | .malformed => .error .malformed
  | .refused text => .error (.refused text)
  | .mismatched reports => .error (.mismatched reports)

/-- Reads a listing. -/
def Document.parse (source : String) : Except ReadFault Document :=
  Document.read source.toUTF8.toList

end Lowering.Listing
