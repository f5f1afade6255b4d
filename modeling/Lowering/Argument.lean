import Lowering.Value
import Lowering.Yaml.Data

/-!
Arguments on a command line, which are read as YAML: a number, a truth value, a sequence, or
otherwise text.
-/

namespace Lowering.Argument
open Yaml

/-- Why a text is no argument. -/
inductive Fault
  | malformed
  | mismatched (source : String) (reports : List String)
  | form (name : String)

def Fault.message : Fault → String
  | .malformed => "invalid argument"
  | .mismatched source reports => s!"invalid argument {Text.quote source}: {reportText reports}"
  | .form name => "unsupported argument of type " ++ name

mutual

def ofData : Data → Except Fault Value
  | .null => .ok .none
  | .bool b => .ok (.bool b)
  | .int n => .ok (.int n)
  | .float x => .ok (.float x)
  | .text s => .ok (.str s)
  | .sequence items => (ofDataAll items).map .sequence
  | d => .error (.form d.form)

def ofDataAll : List Data → Except Fault (List Value)
  | [] => .ok []
  | d :: rest =>
    match ofData d with
    | .error fault => .error fault
    | .ok v => (ofDataAll rest).map (v :: ·)

end

/-- The value of an argument. An empty one is none. -/
def parse (source : String) : Except Fault Value :=
  match readAs data source.toUTF8.toList with
  | .value d => ofData (d.getD .null)
  | .empty => .ok .none
  | .malformed | .refused _ => .error .malformed
  | .mismatched reports => .error (.mismatched source reports)

end Lowering.Argument
