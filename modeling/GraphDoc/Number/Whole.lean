/-!
# Whole numbers

Digits read as a number, and the numbers that fit a 64-bit word with or without a sign.
-/

set_option autoImplicit false

namespace GraphDoc.Whole

def ofDigits (ds : List Char) : Nat := ds.foldl (fun n c => 10 * n + (c.toNat - 48)) 0

def isDigits (ds : List Char) : Bool := !ds.isEmpty && ds.all Char.isDigit

def fitsUnsigned (n : Nat) : Bool := n < 18446744073709551616

def fitsSigned (n : Int) : Bool := -9223372036854775808 ≤ n && n < 9223372036854775808

/-- Digits after an optional plus sign. -/
def unsigned? (cs : List Char) : Option Nat :=
  let ds := if cs.head? = some '+' then cs.drop 1 else cs
  if isDigits ds && fitsUnsigned (ofDigits ds) then some (ofDigits ds) else none

/-- Digits after an optional sign. -/
def signed? (cs : List Char) : Option Int :=
  let negative := cs.head? = some '-'
  let ds := if negative || cs.head? = some '+' then cs.drop 1 else cs
  let n : Int := if negative then -(ofDigits ds : Int) else ofDigits ds
  if isDigits ds && fitsSigned n then some n else none

end GraphDoc.Whole
