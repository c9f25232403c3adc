/-!
# Text

Blank characters, trimming, lines and the ways in which names are taken apart: at each separator, at
the last one and at a known ending.
-/

set_option autoImplicit false

namespace GraphDoc.Text

/-- The characters with the White_Space property. -/
def isBlank (c : Char) : Bool :=
  let n := c.toNat
  (0x09 ≤ n && n ≤ 0x0D) || n == 0x20 || n == 0x85 || n == 0xA0 || n == 0x1680 ||
    (0x2000 ≤ n && n ≤ 0x200A) || n == 0x2028 || n == 0x2029 || n == 0x202F || n == 0x205F ||
    n == 0x3000

def trimChars (cs : List Char) : List Char :=
  ((cs.dropWhile isBlank).reverse.dropWhile isBlank).reverse

def trim (s : String) : String := String.ofList (trimChars s.toList)

/-- The pieces between separators; there is one more of them than separators. -/
def cut (sep : Char) : List Char → List (List Char)
  | [] => [[]]
  | c :: cs =>
    if c = sep then [] :: cut sep cs
    else match cut sep cs with
      | [] => [[c]]
      | l :: ls => (c :: l) :: ls

def dropReturn (cs : List Char) : List Char :=
  match cs.reverse with
  | '\r' :: r => r.reverse
  | _ => cs

/-- Lines end at a line feed, with the carriage return before it. What follows the last line feed
is a line of its own unless it is empty. -/
def lines (cs : List Char) : List (List Char) :=
  let ps := cut '\n' cs
  let last := ps.getLast?.getD []
  ps.dropLast.map dropReturn ++ (if last.isEmpty then [] else [last])

def splitLast? (sep : Char) (s : String) : Option (String × String) :=
  let tail := s.toList.reverse.takeWhile (· ≠ sep)
  match s.toList.reverse.dropWhile (· ≠ sep) with
  | [] => none
  | _ :: front => some (String.ofList front.reverse, String.ofList tail.reverse)

def stripEnding? (ending s : String) : Option String :=
  if ending.toList.isSuffixOf s.toList then
    some (String.ofList (s.toList.take (s.toList.length - ending.toList.length)))
  else none

def hexValue? (c : Char) : Option Nat :=
  let n := c.toNat
  if 48 ≤ n && n ≤ 57 then some (n - 48)
  else if 97 ≤ n && n ≤ 102 then some (n - 87)
  else if 65 ≤ n && n ≤ 70 then some (n - 55)
  else none

def joinWith (sep : String) : List String → String
  | [] => ""
  | [s] => s
  | s :: ss => s ++ sep ++ joinWith sep ss

end GraphDoc.Text
