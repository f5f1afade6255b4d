import Lowering.Text.Stray

/-!
The bytes of a file as characters, one for each byte. Languages whose words and signs are ASCII can
be read so, and what they quote is turned into text at the end.
-/

namespace Lowering.Configuration

/-- Every byte as the character with its number. -/
def octets (source : List UInt8) : List Char := source.map fun b => Char.ofNat b.toNat

/-- The bytes that characters were made from. -/
def octetBytes (octets : List Char) : List UInt8 := octets.map fun c => UInt8.ofNat c.toNat

/-- The text that bytes stand for. -/
def octetText (octets : List Char) : String := Text.ofBytes (octetBytes octets)

/-- What characters start with up to one that ends them, and what follows. -/
def splitAtFirst (ends : Char → Bool) (cs : List Char) : List Char × List Char :=
  (cs.takeWhile (!ends ·), cs.dropWhile (!ends ·))

end Lowering.Configuration
