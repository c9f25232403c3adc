import GraphDoc.Json

/-!
# Names of fragment clones

A clone is named after the arguments applied to it. The arguments are written as one JSON object
with the names in ascending order, its text is hashed to 32 bits, and the hash is written in base
62. Two spreads that apply the same arguments therefore name the same clone.
-/

set_option autoImplicit false

namespace GraphDoc.CloneName

/-- The UTF-16 units of a character. -/
def units (c : Char) : List Nat :=
  let n := c.toNat
  if n < 0x10000 then [n]
  else [0xD800 + (n - 0x10000) / 0x400, 0xDC00 + (n - 0x10000) % 0x400]

/-- The low byte of every UTF-16 unit of the text. -/
def lowBytes (s : String) : List UInt32 :=
  (s.toList.flatMap units).map fun n => UInt32.ofNat (n % 256)

def rotateLeft (x n : UInt32) : UInt32 := (x <<< n) ||| (x >>> (32 - n))

def scramble (k : UInt32) : UInt32 := rotateLeft (k * 0xcc9e2d51) 15 * 0x1b873593

/-- Takes in four bytes at a time, the least significant first, and at last what remains. -/
def absorb (h : UInt32) : List UInt32 → UInt32
  | a :: b :: c :: d :: bytes =>
    let k := a ||| (b <<< 8) ||| (c <<< 16) ||| (d <<< 24)
    absorb (rotateLeft (h ^^^ scramble k) 13 * 5 + 0xe6546b64) bytes
  | [] => h
  | [a] => h ^^^ scramble a
  | [a, b] => h ^^^ scramble (a ||| (b <<< 8))
  | [a, b, c] => h ^^^ scramble (a ||| (b <<< 8) ||| (c <<< 16))

def finish (h : UInt32) : UInt32 :=
  let h := (h ^^^ (h >>> 16)) * 0x85ebca6b
  let h := (h ^^^ (h >>> 13)) * 0xc2b2ae35
  h ^^^ (h >>> 16)

def hash (key : String) (seed : UInt32) : UInt32 :=
  let bytes := lowBytes key
  finish (absorb seed bytes ^^^ UInt32.ofNat bytes.length)

def alphabet : List Char :=
  "0123456789abcdefghijklmnopqrstuvwxyzABCDEFGHIJKLMNOPQRSTUVWXYZ".toList

def digit (n : Nat) : Char := alphabet.getD n '0'

/-- The digits of `n` without leading zeros, of which there are at most `places`. -/
def digits : Nat → Nat → List Char
  | 0, _ => []
  | places + 1, n => if n = 0 then [] else digits places (n / 62) ++ [digit (n % 62)]

/-- A 32-bit number needs at most six digits in base 62. -/
def base62 (value : UInt32) : String :=
  if value = 0 then "0" else String.ofList (digits 6 value.toNat)

def identityChars : List (String × String) → List Char
  | [] => []
  | [(name, raw)] => Json.quoteChars name.toList ++ ':' :: Json.quoteChars raw.toList
  | (name, raw) :: entry :: entries =>
    Json.quoteChars name.toList ++ ':' :: Json.quoteChars raw.toList ++
      ',' :: identityChars (entry :: entries)

def identity (arguments : NameMap String) : String :=
  String.ofList ('\x7b' :: (identityChars arguments ++ ['\x7d']))

def ending (arguments : NameMap String) : String := base62 (hash (identity arguments) 0)

/-- The name of the clone of `template` to which `arguments` are applied. -/
def cloneName (template : String) (arguments : NameMap String) : String :=
  template ++ "_" ++ ending arguments

end GraphDoc.CloneName
