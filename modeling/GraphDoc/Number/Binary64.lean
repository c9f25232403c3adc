/-!
# Double-precision numbers

A binary64 number is a sign, a mantissa below 2^53 and an exponent of at least -1074, or one of the
two infinities. `ofDecimal` rounds a decimal to the nearest of them, ties to the even mantissa, and
`shortest` finds the fewest decimal digits that round back. Both work in exact arithmetic.
-/

set_option autoImplicit false

namespace GraphDoc

/-- `finite negative m q` is `m * 2 ^ q`, negated if `negative`. Either `m` has 53 bits or `q` is
the least exponent. -/
inductive Binary64 where
  | finite (negative : Bool) (mantissa : Nat) (exponent : Int)
  | infinite (negative : Bool)
deriving DecidableEq, Inhabited

namespace Binary64

def leastExponent : Int := -1074

def greatestExponent : Int := 971

/-- The quotient rounded to the nearest natural number, ties to the even one. -/
def roundDiv (num den : Nat) : Nat :=
  let q := num / den
  let r := num % den
  if 2 * r < den then q
  else if 2 * r > den then q + 1
  else if q % 2 = 0 then q else q + 1

/-- The two sides of `num / (den * 2 ^ q)` as natural numbers. -/
def scaleDown (num den : Nat) (q : Int) : Nat × Nat :=
  if 0 ≤ q then (num, den * Nat.pow 2 q.toNat) else (num * Nat.pow 2 (-q).toNat, den)

def ofFraction (negative : Bool) (num den : Nat) : Binary64 :=
  let guess : Int := (Nat.log2 num : Int) - (Nat.log2 den : Int) - 53
  let (n, d) := scaleDown num den guess
  let q := max leastExponent (if Nat.pow 2 53 ≤ n / d then guess + 1 else guess)
  let (n, d) := scaleDown num den q
  let m := roundDiv n d
  let (m, q) := if m = Nat.pow 2 53 then (Nat.pow 2 52, q + 1) else (m, q)
  if greatestExponent < q then infinite negative else finite negative m q

def decimalLength (n : Nat) : Nat := (Nat.toDigits 10 n).length

/-- Rounds `coefficient * 10 ^ power`. Beyond 10^310 everything is infinite and below 10^-330
everything is zero, so no larger power of ten is ever formed. -/
def ofDecimal (negative : Bool) (coefficient : Nat) (power : Int) : Binary64 :=
  let magnitude := (decimalLength coefficient : Int) + power
  if coefficient = 0 || magnitude < -330 then finite negative 0 leastExponent
  else if 310 < magnitude then infinite negative
  else if 0 ≤ power then ofFraction negative (coefficient * Nat.pow 10 power.toNat) 1
  else ofFraction negative coefficient (Nat.pow 10 (-power).toNat)

/-- A positive decimal `0.d₁d₂… * 10 ^ point`. -/
structure Decimal where
  digits : List Char
  point : Int
deriving DecidableEq

/-- The interval of numbers that round to `m * 2 ^ q`, in quarters of `2 ^ q`; the ends belong to it
exactly if `m` is even. -/
def low (m : Nat) (q : Int) : Nat :=
  if m = Nat.pow 2 52 && leastExponent < q then 4 * m - 1 else 4 * m - 2

def high (m : Nat) : Nat := 4 * m + 2

def roundsTo (m : Nat) (q : Int) (grid : Nat) (unit : Int) : Bool :=
  let ten := if 0 ≤ unit then Nat.pow 10 unit.toNat else 1
  let tenth := if 0 ≤ unit then 1 else Nat.pow 10 (-unit).toNat
  let two := if 0 ≤ q then Nat.pow 2 q.toNat else 1
  let half := if 0 ≤ q then 1 else Nat.pow 2 (-q).toNat
  let point := 4 * grid * ten * half
  let lower := low m q * two * tenth
  let upper := high m * two * tenth
  if m % 2 = 0 then lower ≤ point && point ≤ upper else lower < point && point < upper

/-- The value as a fraction of the grid unit `10 ^ unit`. -/
def onGrid (m : Nat) (q unit : Int) : Nat × Nat :=
  let num := if 0 ≤ q then m * Nat.pow 2 q.toNat else m
  let den := if 0 ≤ q then 1 else Nat.pow 2 (-q).toNat
  if 0 ≤ unit then (num, den * Nat.pow 10 unit.toNat) else (num * Nat.pow 10 (-unit).toNat, den)

/-- The neighbour of the value on the grid that rounds back; of two the nearer, of two equally near
the greater. -/
def hit? (m : Nat) (q unit : Int) : Option Nat :=
  let (num, den) := onGrid m q unit
  let below := num / den
  let above := if num % den = 0 then below else below + 1
  let okBelow := roundsTo m q below unit && 0 < below
  let okAbove := roundsTo m q above unit
  if okBelow && okAbove then
    if 2 * (num % den) < den then some below else some above
  else if okBelow then some below
  else if okAbove then some above
  else none

/-- The place of the leading digit: the least `k` of those tried with the value below `10 ^ k`. -/
def leadingPlace (m : Nat) (q : Int) : Int :=
  let (num, den) := onGrid m q 0
  if den ≤ num then (decimalLength (num / den) : Int)
  else
    let estimate := (decimalLength den : Int) - (decimalLength num : Int)
    let (n, d) := onGrid m q (-estimate)
    if d ≤ n then 1 - estimate else -estimate

def dropZeros (ds : List Char) : List Char := (ds.reverse.dropWhile (· = '0')).reverse

def search (m : Nat) (q place : Int) : Nat → Nat → Decimal
  | 0, _ => ⟨[], place⟩
  | tries + 1, count =>
    let unit := place - count
    match hit? m q unit with
    | some grid =>
      let ds := Nat.toDigits 10 grid
      ⟨dropZeros ds, unit + ds.length⟩
    | none => search m q place tries (count + 1)

/-- The fewest digits that round back to `m * 2 ^ q`; seventeen always do. -/
def shortest (m : Nat) (q : Int) : Decimal := search m q (leadingPlace m q) 17 1

/-- How a decimal is written: positionally while the point is near the digits. -/
structure Layout where
  leastPoint : Int
  greatestPoint : Int

def zeros (n : Nat) : List Char := List.replicate n '0'

/-- At least one digit stands on each side of the point. -/
def positional (d : Decimal) : List Char :=
  if d.point ≤ 0 then '0' :: '.' :: (zeros (-d.point).toNat ++ d.digits)
  else
    let whole := d.point.toNat
    let front := d.digits.take whole
    let back := d.digits.drop whole
    front ++ zeros (whole - d.digits.length) ++ '.' :: (if back.isEmpty then ['0'] else back)

def scientific (d : Decimal) : List Char :=
  let fraction := d.digits.drop 1
  d.digits.take 1 ++ (if fraction.isEmpty then [] else '.' :: fraction) ++
    'e' :: (toString (d.point - 1)).toList

/-- Numbers from 0.0001 up to, but not including, 10^16 are written positionally. -/
def layout : Layout := ⟨-3, 16⟩

def magnitudeText (m : Nat) (q : Int) : List Char :=
  if m = 0 then "0.0".toList
  else
    let d := shortest m q
    if layout.leastPoint ≤ d.point && d.point ≤ layout.greatestPoint then positional d
    else scientific d

def text : Binary64 → String
  | finite negative m q => String.ofList ((if negative then ['-'] else []) ++ magnitudeText m q)
  | infinite negative => if negative then "-inf" else "inf"

end Binary64

end GraphDoc
