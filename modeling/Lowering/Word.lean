/-!
Words of 64 bits, which all counts, offsets and operands are.
-/

namespace Lowering

/-- The least and the greatest word. -/
def leastWord : Int := -0x8000000000000000

def greatestWord : Int := 0x7fffffffffffffff

/-- How many items a table or a stack can hold at most; more cannot be addressed. -/
def addressable : Nat := 0x1000000000000

/-- A number as a word, when it fits. -/
def word? (n : Int) : Option Int64 :=
  if leastWord ≤ n && n ≤ greatestWord then some (Int64.ofInt n) else none

end Lowering
