/-!
# Pools of connections

A pool lends a fixed number of connections. When all are lent, a request gives up after a while.
-/

set_option autoImplicit false

namespace GraphDoc

structure Pool where
  size : Nat
  lent : Nat := 0
  /-- How long a request waits, in milliseconds. -/
  timeout : Nat
deriving DecidableEq, Inhabited

namespace Pool

/-- A duration in whole milliseconds or in seconds with up to three places. -/
def durationText (milliseconds : Nat) : String :=
  if milliseconds = 0 then "0ns"
  else if milliseconds < 1000 then toString milliseconds ++ "ms"
  else
    let rest := milliseconds % 1000
    let padded := (toString (1000 + rest)).toList.drop 1
    let places := (padded.reverse.dropWhile (· = '0')).reverse
    let fraction := if rest = 0 then "" else "." ++ String.ofList places
    toString (milliseconds / 1000) ++ fraction ++ "s"

structure Exhausted where
  size : Nat
  timeout : Nat
deriving DecidableEq, Inhabited

def Exhausted.message (e : Exhausted) : String :=
  "no idle connection after " ++ durationText e.timeout ++ " (pool of " ++ toString e.size ++ ")"

def lend (p : Pool) : Except Exhausted Pool :=
  if p.lent < p.size then .ok { p with lent := p.lent + 1 } else .error ⟨p.size, p.timeout⟩

def takeBack (p : Pool) : Pool := { p with lent := p.lent - 1 }

end Pool

end GraphDoc
