import AgentLoop.Number.Floating

/-!
# Decimal notation

Reading: a decimal stands for `digits · 10 ^ exponent`, and `Decimal.toFloating` is the number nearest to it.
Writing: `Floating.shortest` gives the fewest digits that read back as the same number of its format, and of those
the nearest to it; the layouts below place the point.
-/

namespace AgentLoop

/-- A written decimal: `± digits · 10 ^ exponent`. -/
structure Decimal where
  negative : Bool := false
  digits : Nat
  exponent : Int := 0
  deriving DecidableEq, Repr

def isDigit (c : Char) : Bool := '0' ≤ c && c ≤ '9'

def digitValue (c : Char) : Nat := c.toNat - '0'.toNat

/-- The number that decimal digits spell, most significant first. -/
def ofDigits (cs : List Char) : Nat :=
  cs.foldl (fun n c => 10 * n + digitValue c) 0

def digitCount (n : Nat) : Nat := (Nat.toDigits 10 n).length

namespace Decimal

/-- The nearest number of the format.  A decimal far outside the format's range is settled by its size alone,
so that a huge exponent costs nothing. -/
def toFloating (f : FloatFormat) (d : Decimal) : Floating :=
  let size := d.exponent + digitCount d.digits
  if d.digits = 0 ∨ size < -400 then f.round d.negative 0 1
  else if 400 < size then .infinite d.negative
  else f.round d.negative (d.digits * Nat.pow 10 d.exponent.toNat) (Nat.pow 10 (-d.exponent).toNat)

end Decimal

/-- The greatest `k` with `10 ^ k ≤ num / den`, for positive `num` and `den`. -/
def floorLog10 (num den : Nat) : Int :=
  if den ≤ num then digitCount (num / den) - 1
  else
    let k := digitCount (den / num)
    if den ≤ num * Nat.pow 10 (k - 1) then 1 - (k : Int) else -(k : Int)

namespace Floating

/-- On the grid of the multiples of `10 ^ k`, the neighbour of `m · 2 ^ e` that reads back as it and lies
nearest, if one of the two does. -/
def onGrid (f : FloatFormat) (m : Nat) (e k : Int) : Option Nat :=
  -- everything is measured in quarters of the last binary place, times a common denominator
  let place := Nat.pow 10 (-k).toNat <<< (e - 2).toNat
  let step := Nat.pow 10 k.toNat <<< (2 - e).toNat
  let x := 4 * m * place
  let below := if m = 1 <<< (f.precision - 1) ∧ f.leastExponent < e then place else 2 * place
  let reads (d : Nat) : Bool :=
    let y := d * step
    if m % 2 = 0 then x - below ≤ y && y ≤ x + 2 * place else x - below < y && y < x + 2 * place
  let low := x / step
  match reads low, reads (low + 1) with
  | true, true => some (if x - low * step ≤ (low + 1) * step - x then low else low + 1)
  | true, false => some low
  | false, true => some (low + 1)
  | false, false => none

/-- The fewest decimal digits that read back as `m · 2 ^ e`, with their exponent. -/
def shortest (f : FloatFormat) (m : Nat) (e : Int) : Nat × Int :=
  let top := floorLog10 (m <<< e.toNat) (1 <<< (-e).toNat)
  let tries : List (Nat × Int) := (List.range 18).filterMap fun (i : Nat) =>
    (onGrid f m e (top - i)).map fun d => (d, top - (i : Int))
  match tries.head? with
  | some (d, k) => if d = 10 then (1, k + 1) else (d, k)
  | none => (m, e)

end Floating

/-- Digits with the point put in place and no exponent: `1200`, `0.0012`, `1.2`. -/
def positional (digits : Nat) (exponent : Int) : String :=
  let ds := Nat.repr digits
  if 0 ≤ exponent then ds ++ String.ofList (List.replicate exponent.toNat '0')
  else
    let places := (-exponent).toNat
    let cs := ds.toList
    if places < cs.length then
      String.ofList (cs.take (cs.length - places)) ++ "." ++ String.ofList (cs.drop (cs.length - places))
    else "0." ++ String.ofList (List.replicate (places - cs.length) '0') ++ ds

/-- One digit before the point and an exponent of ten after the rest: `1.25e+30`, `5e-324`. -/
def scientific (digits : Nat) (exponent : Int) : String :=
  let ds := Nat.repr digits
  let e := exponent + (ds.length - 1 : Nat)
  let fraction := String.ofList (ds.toList.drop 1)
  let point := if fraction.isEmpty then "" else "."
  let sign := if e < 0 then "-" else "+"
  String.ofList (ds.toList.take 1) ++ point ++ fraction ++ "e" ++ sign ++ Nat.repr e.natAbs

namespace Floating

def signText (negative : Bool) : String := if negative then "-" else ""

/-- The plain notation: never an exponent, no point in a whole number. -/
def plain (f : FloatFormat) : Floating → String
  | nan => "NaN"
  | infinite s => signText s ++ "inf"
  | finite s 0 _ => signText s ++ "0"
  | finite s m e =>
    let (d, k) := shortest f m e
    signText s ++ positional d k

/-- A whole number gets `.0`. -/
def withPoint (f : FloatFormat) (x : Floating) : String :=
  let text := x.plain f
  if x.value.den = 1 then text ++ ".0" else text

/-- Which decimal exponents are written positionally in JSON. -/
def isPositionalInJson (f : FloatFormat) (e : Int) : Bool :=
  if f.precision ≤ 24 then -6 ≤ e && e ≤ 12 else -5 ≤ e && e ≤ 15

/-- The notation of JSON, for finite numbers: positional with a point, or scientific when very large or small. -/
def jsonText (f : FloatFormat) : Floating → String
  | finite s 0 _ => signText s ++ "0.0"
  | x@(finite s m e) =>
    let (d, k) := shortest f m e
    if isPositionalInJson f (k + (digitCount d - 1 : Nat)) then x.withPoint f else signText s ++ scientific d k
  | _ => "null"

/-- Reads `NaN`, `inf` and `-inf`, and otherwise a decimal with an optional fraction and exponent. -/
def ofText? (f : FloatFormat) (s : String) : Option Floating :=
  match s.toList with
  | ['N', 'a', 'N'] => some nan
  | ['i', 'n', 'f'] => some (infinite false)
  | ['-', 'i', 'n', 'f'] => some (infinite true)
  | cs =>
    let (negative, cs) := match cs with
      | '-' :: r => (true, r)
      | '+' :: r => (false, r)
      | r => (false, r)
    let whole := cs.takeWhile isDigit
    let rest := cs.dropWhile isDigit
    let (fraction, rest) := match rest with
      | '.' :: r => (r.takeWhile isDigit, r.dropWhile isDigit)
      | r => ([], r)
    let exponent := match rest with
      | [] => some (0 : Int)
      | c :: r =>
        if c = 'e' ∨ c = 'E' then
          let (down, ds) := match r with
            | '-' :: r => (true, r)
            | '+' :: r => (false, r)
            | r => (false, r)
          if ds.isEmpty || !ds.all isDigit then none
          else some (if down then -(ofDigits ds : Int) else (ofDigits ds : Int))
        else none
    if (whole ++ fraction).isEmpty then none
    else exponent.map fun e =>
      Decimal.toFloating f ⟨negative, ofDigits (whole ++ fraction), e - fraction.length⟩

end Floating

end AgentLoop
