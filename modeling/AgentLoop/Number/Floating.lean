/-!
# Binary floating-point numbers

A number of a binary format is `± significand · 2 ^ exponent`, an infinity, or not a number at all.  Every
inexact operation of the library goes through one rounding, `FloatFormat.round`: the nearest number of the format
to an exact quotient, a tie going to the even significand.
-/

namespace AgentLoop

/-- A binary format: the bits of a significand, and the exponents of its least and its greatest unit. -/
structure FloatFormat where
  precision : Nat
  leastExponent : Int
  greatestExponent : Int
  deriving DecidableEq, Repr

namespace FloatFormat

/-- Sixty-four bits. -/
def double : FloatFormat := ⟨53, -1074, 971⟩

/-- Thirty-two bits. -/
def single : FloatFormat := ⟨24, -149, 104⟩

end FloatFormat

inductive Floating where
  | nan
  | infinite (negative : Bool)
  | finite (negative : Bool) (significand : Nat) (exponent : Int)
  deriving DecidableEq, Repr

/-- The quotient to the nearest natural number, a half going to the even neighbour. -/
def roundQuotient (num den : Nat) : Nat :=
  let whole := num / den
  let double := 2 * (num % den)
  if double < den then whole else if den < double then whole + 1 else whole + whole % 2

/-- The greatest `k` with `2 ^ k ≤ num / den`, for positive `num` and `den`. -/
def floorLog2 (num den : Nat) : Int :=
  let k : Int := num.log2 - den.log2
  if den <<< k.toNat ≤ num <<< (-k).toNat then k else k - 1

namespace FloatFormat

/-- The number of the format nearest to `num / den`. -/
def round (f : FloatFormat) (negative : Bool) (num den : Nat) : Floating :=
  if num = 0 then .finite negative 0 f.leastExponent
  else
    let e := max f.leastExponent (floorLog2 num den - (f.precision - 1 : Nat))
    let m := roundQuotient (num <<< (-e).toNat) (den <<< e.toNat)
    let (m, e) := if m = 1 <<< f.precision then (1 <<< (f.precision - 1), e + 1) else (m, e)
    if f.greatestExponent < e then .infinite negative else .finite negative m e

/-- The number of the format nearest to an exact one. -/
def roundRat (f : FloatFormat) (q : Rat) : Floating :=
  f.round (q < 0) q.num.natAbs q.den

end FloatFormat

namespace Floating

/-- The exact value; infinities and not-a-number have none and count as zero. -/
def value : Floating → Rat
  | finite negative m e =>
    let magnitude := mkRat (m <<< e.toNat : Nat) (1 <<< (-e).toNat)
    if negative then -magnitude else magnitude
  | _ => 0

def isNaN : Floating → Bool
  | nan => true
  | _ => false

/-- Strictly below; never so when one side is not a number. -/
def lt : Floating → Floating → Bool
  | nan, _ => false
  | _, nan => false
  | infinite a, infinite b => a && !b
  | infinite a, finite .. => a
  | finite .., infinite b => !b
  | x, y => x.value < y.value

/-- At most; never so when one side is not a number. -/
def le (x y : Floating) : Bool := !x.isNaN && !y.isNaN && !y.lt x

/-- The same number in another format. -/
def convert (f : FloatFormat) : Floating → Floating
  | nan => nan
  | infinite s => infinite s
  | finite s m e => f.round s (m <<< e.toNat) (1 <<< (-e).toNat)

def ofNat (f : FloatFormat) (n : Nat) : Floating :=
  f.round false n 1

def isInfinite : Floating → Bool
  | infinite _ => true
  | _ => false

def negate : Floating → Floating
  | nan => nan
  | infinite s => infinite !s
  | finite s m e => finite (!s) m e

end Floating

end AgentLoop
