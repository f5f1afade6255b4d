/-!
Base 64, in which binary scalars are written. Line breaks between the digits are passed over.
-/

namespace Lowering.Yaml

def base64Digit? (c : Char) : Option Nat :=
  if 'A' ≤ c && c ≤ 'Z' then some (c.toNat - 65)
  else if 'a' ≤ c && c ≤ 'z' then some (c.toNat - 71)
  else if '0' ≤ c && c ≤ '9' then some (c.toNat + 4)
  else if c = '+' then some 62
  else if c = '/' then some 63
  else none

/-- The bytes of groups of four digits, the last of which may be filled up. -/
def base64Groups? : List Char → Option (List UInt8)
  | [] => some []
  | [a, b, '=', '='] =>
    match base64Digit? a, base64Digit? b with
    | some a, some b => some [UInt8.ofNat (a * 4 + b / 16)]
    | _, _ => none
  | [a, b, c, '='] =>
    match base64Digit? a, base64Digit? b, base64Digit? c with
    | some a, some b, some c =>
      some [UInt8.ofNat (a * 4 + b / 16), UInt8.ofNat (b * 16 + c / 4)]
    | _, _, _ => none
  | a :: b :: c :: d :: rest =>
    match base64Digit? a, base64Digit? b, base64Digit? c, base64Digit? d, base64Groups? rest with
    | some a, some b, some c, some d, some more =>
      some (UInt8.ofNat (a * 4 + b / 16) :: UInt8.ofNat (b * 16 + c / 4) :: UInt8.ofNat (c * 64 + d)
        :: more)
    | _, _, _, _, _ => none
  | _ => none

def base64? (s : String) : Option (List UInt8) :=
  base64Groups? (s.toList.filter fun c => c ≠ '\n' && c ≠ '\r')

end Lowering.Yaml
