import AgentLoop.Number.Floating
import AgentLoop.Time.Span

/-!
# Backoff

The delay before another attempt doubles from attempt to attempt up to a maximum, and may be spread at random by a
fraction of itself to both sides.
-/

namespace AgentLoop

structure RetryPolicy where
  maxAttempts : UInt32 := 3
  initial : Span := .ofMilliseconds 500
  max : Span := .ofMilliseconds 8000
  /-- The fraction of the delay by which it is spread, a number of double precision. -/
  jitter : Floating
  deriving DecidableEq, Repr

namespace RetryPolicy

/-- Attempts in all, the first included; none at all counts as one. -/
def attempts (p : RetryPolicy) : Nat := Nat.max p.maxAttempts.toNat 1

theorem attempts_pos (p : RetryPolicy) : 0 < p.attempts := Nat.lt_of_lt_of_le Nat.zero_lt_one (Nat.le_max_right ..)

/-- The delay before the retry with this number, counted from zero.  More than thirty-one doublings count as
thirty-one, and a product beyond the longest span counts as the maximum. -/
def baseDelay (p : RetryPolicy) (attempt : UInt32) : Span :=
  let doubled := p.initial.nanoseconds <<< Nat.min attempt.toNat 31
  if Span.longest.nanoseconds < doubled then p.max else Span.min ⟨doubled⟩ p.max

/-- The fraction in effect: within zero and one, and zero where the setting is not a number. -/
def effectiveJitter (p : RetryPolicy) : Rat :=
  match p.jitter with
  | .nan => 0
  | .infinite negative => if negative then 0 else 1
  | x => if x.value < 0 then 0 else if 1 < x.value then 1 else x.value

/-- The nearest number of double precision. -/
def nearest (q : Rat) : Rat := (FloatFormat.double.roundRat q).value

/-- A span as seconds in double precision. -/
def inSeconds (s : Span) : Rat :=
  nearest (nearest (s.nanoseconds / 1000000000 : Nat) + nearest ((s.nanoseconds % 1000000000 : Nat) / 1000000000))

/-- A span of that many seconds, to the nearest nanosecond; there is none beyond the longest span. -/
def ofSeconds? (q : Rat) : Option Span :=
  if (UInt64.size : Rat) ≤ q then none else some ⟨roundQuotient (q.num.toNat * 1000000000) q.den⟩

/-- A random word as a number from zero on and below one. -/
def unitInterval (draw : UInt64) : Rat := mkRat (draw >>> 12).toNat (1 <<< 52)

/-- The delay spread by a random word; none if it is beyond the longest span. -/
def jitteredDelay? (p : RetryPolicy) (attempt : UInt32) (draw : UInt64) : Option Span :=
  let base := p.baseDelay attempt
  let j := p.effectiveJitter
  if j = 0 then some base
  else
    let factor := nearest (nearest (unitInterval draw * nearest (j + j)) - j)
    let scale := nearest (1 + factor)
    ofSeconds? (nearest ((if scale < 0 then 0 else scale) * inSeconds base))

/-- The shortest and the longest delay that random words may lead to; a greater word never shortens the delay. -/
def delayRange? (p : RetryPolicy) (attempt : UInt32) : Option (Span × Span) := do
  return (← p.jitteredDelay? attempt 0, ← p.jitteredDelay? attempt (.ofNat (UInt64.size - 1)))

/-- Whether a delay takes a random word. -/
def draws (p : RetryPolicy) : Bool := p.effectiveJitter != 0

end RetryPolicy

end AgentLoop
