import AgentLoop.Number.Decimal

/-!
# Spans of time

A span is a whole number of nanoseconds.  The clock moves in whole milliseconds: a timer set for part of one goes
off at the end of it.
-/

namespace AgentLoop

structure Span where
  nanoseconds : Nat
  deriving DecidableEq, Repr, Inhabited

namespace Span

/-- The longest span: seconds in sixty-four bits, and 999 999 999 nanoseconds. -/
def longest : Span := ⟨UInt64.size * 1000000000 - 1⟩

def ofSeconds (s : Nat) : Span := ⟨s * 1000000000⟩

def ofMilliseconds (ms : Nat) : Span := ⟨ms * 1000000⟩

def milliseconds (s : Span) : Nat := s.nanoseconds / 1000000

/-- Ticks of the clock until a timer set for the span goes off. -/
def ticks (s : Span) : Nat := (s.nanoseconds + 999999) / 1000000

def min (a b : Span) : Span := ⟨Nat.min a.nanoseconds b.nanoseconds⟩

/-- A number of units in decimal notation, without superfluous zeros. -/
def unitsText (nanoseconds unit places : Nat) (name : String) : String :=
  let whole := Nat.repr (nanoseconds / unit)
  let rest := nanoseconds % unit
  if rest = 0 then whole ++ name
  else
    let digits := Nat.repr rest
    let fraction := List.replicate (places - digits.length) '0' ++ digits.toList
    whole ++ "." ++ String.ofList (fraction.reverse.dropWhile (· == '0')).reverse ++ name

/-- In the greatest unit that the span reaches: `1.5ms`, `120s`. -/
def text (s : Span) : String :=
  let n := s.nanoseconds
  if 1000000000 ≤ n then unitsText n 1000000000 9 "s"
  else if 1000000 ≤ n then unitsText n 1000000 6 "ms"
  else if 1000 ≤ n then unitsText n 1000 3 "µs"
  else unitsText n 1 0 "ns"

end Span

end AgentLoop
