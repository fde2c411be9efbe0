import AgentLoop.Json.Basic

/-!
# The tokens of JSON

`Json.tokens` splits a text into brackets, separators, literals, numbers and strings.  Blanks between tokens are
space, tab, line feed and carriage return only.  Strings hold no raw control character.  A number that is too large
and a string with a lone surrogate are tokens without a value.

A number without fraction and exponent that fits in sixty-four bits, with or without sign, is an integer; any other
number is binary.  Of its digits only those are kept that fit in an unsigned word of sixty-four bits, and the kept
digits and the power of ten are rounded before they are combined, so the last place may differ from that of the
nearest number.
-/

namespace AgentLoop.Json

inductive Token where
  | openArray
  | closeArray
  | openObject
  | closeObject
  | comma
  | colon
  | null
  | bool (value : Bool)
  | number (value : Option JsonNumber)
  | string (value : Option String)
  deriving DecidableEq, Repr

/-! ### Numbers -/

def wordLimit : Nat := UInt64.size

/-- Appends digits to a significand while it fits in a word.  Returns how many were not kept. -/
def keepDigits (kept : Nat) : List Char → Nat × Nat
  | [] => (kept, 0)
  | c :: cs =>
    if 10 * kept + digitValue c < wordLimit then keepDigits (10 * kept + digitValue c) cs
    else (kept, cs.length + 1)

/-- `significand · 10 ^ exponent`, with a rounding after each step; nothing if it is too large. -/
def scaleByTen (significand : Nat) (exponent : Int) : Option Floating :=
  let start := (Floating.ofNat .double significand).value
  if significand = 0 then some (.ofNat .double 0)
  else if 308 < exponent then none
  else
    let power (k : Nat) : Rat := (Floating.ofNat .double (Nat.pow 10 k)).value
    let quotient (q : Rat) (k : Nat) : Rat := (FloatFormat.double.roundRat (q / power k)).value
    let result :=
      if 0 ≤ exponent then FloatFormat.double.roundRat (start * power exponent.toNat)
      else
        let k := (-exponent).toNat
        if k ≤ 308 then FloatFormat.double.roundRat (start / power k)
        else if k ≤ 616 then FloatFormat.double.roundRat (quotient start 308 / power (k - 308))
        else .ofNat .double 0
    if result.isInfinite then none else some result

/-- The number written with these whole digits, fraction digits and exponent. -/
def numberOfParts (negative : Bool) (whole : List Char) (fraction : Option (List Char))
    (exponent : Option Int) : Option JsonNumber :=
  let signed (x : Floating) : JsonNumber := .double (if negative then x.negate else x)
  let (kept, dropped) := keepDigits 0 whole
  match fraction, exponent with
  | none, none =>
    if 0 < dropped then (scaleByTen kept dropped).map signed
    else if !negative then some (.integer kept)
    else if kept = 0 ∨ 1 <<< 63 < kept then some (signed (.ofNat .double kept))
    else some (.integer (-kept))
  | _, _ =>
    let digits := fraction.getD []
    let (kept, lost) := keepDigits kept digits
    (scaleByTen kept (dropped - (digits.length - lost : Nat) + exponent.getD 0)).map signed

/-! ### Scanning -/

/-- What is left of the text after a token: strictly less than `cs`. -/
abbrev Shorter (cs : List Char) := { rest : List Char // rest.length < cs.length }

private theorem length_dropWhile_le {α : Type} (p : α → Bool) (cs : List α) : (cs.dropWhile p).length ≤ cs.length :=
  (List.dropWhile_suffix p).length_le

/-- Splits off the longest run of digits. -/
def spanDigits (cs : List Char) : List Char × { rest : List Char // rest.length ≤ cs.length } :=
  (cs.takeWhile isDigit, ⟨cs.dropWhile isDigit, length_dropWhile_le isDigit cs⟩)

/-- The fraction, if there is a point; a point without digits is an error. -/
def scanFraction (cs : List Char) :
    Option (Option (List Char) × { rest : List Char // rest.length ≤ cs.length }) :=
  match cs with
  | '.' :: r =>
    let (digits, ⟨rest, h⟩) := spanDigits r
    if digits.isEmpty then none else some (some digits, ⟨rest, Nat.le_succ_of_le h⟩)
  | r => some (none, ⟨r, Nat.le_refl _⟩)

/-- The digits of an exponent; there must be one. -/
def scanExponentDigits (negative : Bool) (cs : List Char) :
    Option (Option Int × { rest : List Char // rest.length ≤ cs.length }) :=
  let (digits, rest) := spanDigits cs
  if digits.isEmpty then none
  else some (some (if negative then -(ofDigits digits : Int) else (ofDigits digits : Int)), rest)

/-- The exponent, if there is one; an exponent without digits is an error. -/
def scanExponent (cs : List Char) :
    Option (Option Int × { rest : List Char // rest.length ≤ cs.length }) :=
  match cs with
  | [] => some (none, ⟨[], Nat.le_refl _⟩)
  | c :: r =>
    if c = 'e' ∨ c = 'E' then
      match r with
      | '-' :: ds => (scanExponentDigits true ds).map fun (e, ⟨rest, h⟩) =>
        (e, ⟨rest, Nat.le_succ_of_le (Nat.le_succ_of_le h)⟩)
      | '+' :: ds => (scanExponentDigits false ds).map fun (e, ⟨rest, h⟩) =>
        (e, ⟨rest, Nat.le_succ_of_le (Nat.le_succ_of_le h)⟩)
      | ds => (scanExponentDigits false ds).map fun (e, ⟨rest, h⟩) =>
        (e, ⟨rest, Nat.le_succ_of_le h⟩)
    else some (none, ⟨c :: r, Nat.le_refl _⟩)

/-- A number without its sign: no superfluous leading zero, and neither point nor exponent without digits. -/
def scanUnsigned (negative : Bool) (cs : List Char) : Option (Option JsonNumber × Shorter cs) :=
  match h : spanDigits cs with
  | ([], _) => none
  | ('0' :: _ :: _, _) => none
  | (d :: ds, ⟨r₁, _⟩) => do
    let (fraction, ⟨r₂, h₂⟩) ← scanFraction r₁
    let (exponent, ⟨r₃, h₃⟩) ← scanExponent r₂
    return (numberOfParts negative (d :: ds) fraction exponent, ⟨r₃, by
      have hl : (cs.takeWhile isDigit) = d :: ds := congrArg Prod.fst h
      have hr : cs.dropWhile isDigit = r₁ := congrArg (fun p => p.2.1) h
      have := congrArg List.length (List.takeWhile_append_dropWhile (p := isDigit) (l := cs))
      rw [hl, hr] at this
      simp only [List.length_append, List.length_cons] at this
      omega⟩)

def hexValue? (c : Char) : Option Nat :=
  if '0' ≤ c && c ≤ '9' then some (c.toNat - 48)
  else if 'a' ≤ c && c ≤ 'f' then some (c.toNat - 87)
  else if 'A' ≤ c && c ≤ 'F' then some (c.toNat - 55)
  else none

/-- The unit that four hexadecimal digits spell. -/
def unit? (a b c d : Char) : Option Nat := do
  return 4096 * (← hexValue? a) + 256 * (← hexValue? b) + 16 * (← hexValue? c) + (← hexValue? d)

def shortEscape? : Char → Option Char
  | '"' => some '"'
  | '\\' => some '\\'
  | '/' => some '/'
  | 'b' => some '\x08'
  | 'f' => some '\x0c'
  | 'n' => some '\n'
  | 'r' => some '\r'
  | 't' => some '\t'
  | _ => none

/-- A piece of a string: a character, or a sixteen-bit unit written in hexadecimal. -/
inductive Piece where
  | char (c : Char)
  | unit (u : Nat)

def isHighSurrogate (u : Nat) : Bool := 0xD800 ≤ u && u ≤ 0xDBFF

def isLowSurrogate (u : Nat) : Bool := 0xDC00 ≤ u && u ≤ 0xDFFF

/-- A high surrogate and the low one after it make one character; neither may stand alone. -/
def joinPieces : List Piece → Option (List Char)
  | [] => some []
  | .char c :: rest => (joinPieces rest).map (c :: ·)
  | .unit u :: .unit v :: rest =>
    if isHighSurrogate u && isLowSurrogate v then
      (joinPieces rest).map (Char.ofNat (0x10000 + 0x400 * (u - 0xD800) + (v - 0xDC00)) :: ·)
    else if isHighSurrogate u || isLowSurrogate u then none
    else (joinPieces (.unit v :: rest)).map (Char.ofNat u :: ·)
  | .unit u :: rest =>
    if isHighSurrogate u || isLowSurrogate u then none else (joinPieces rest).map (Char.ofNat u :: ·)

/-- The pieces up to the closing quotation mark, after those already read (last first). -/
def scanPieces (done : List Piece) : (cs : List Char) → Option (List Piece × Shorter cs)
  | [] => none
  | '"' :: r => some (done.reverse, ⟨r, by simp⟩)
  | '\\' :: 'u' :: a :: b :: c :: d :: r => do
    let (pieces, ⟨rest, h⟩) ← scanPieces (.unit (← unit? a b c d) :: done) r
    return (pieces, ⟨rest, by simp only [List.length_cons]; omega⟩)
  | '\\' :: e :: r => do
    let (pieces, ⟨rest, h⟩) ← scanPieces (.char (← shortEscape? e) :: done) r
    return (pieces, ⟨rest, by simp only [List.length_cons]; omega⟩)
  | c :: r =>
    if c.toNat < 0x20 ∨ c = '\\' then none
    else do
      let (pieces, ⟨rest, h⟩) ← scanPieces (.char c :: done) r
      return (pieces, ⟨rest, by simp only [List.length_cons]; omega⟩)

/-- The string up to the closing quotation mark. -/
def scanString (cs : List Char) : Option (Option String × Shorter cs) := do
  let (pieces, rest) ← scanPieces [] cs
  return ((joinPieces pieces).map String.ofList, rest)

def isJsonBlank (c : Char) : Bool := c == ' ' || c == '\t' || c == '\n' || c == '\r'

/-- The first token of a text that does not begin with a blank. -/
def scanToken : (cs : List Char) → Option (Token × Shorter cs)
  | '[' :: r => some (.openArray, ⟨r, by simp⟩)
  | ']' :: r => some (.closeArray, ⟨r, by simp⟩)
  | '\x7b' :: r => some (.openObject, ⟨r, by simp⟩)
  | '\x7d' :: r => some (.closeObject, ⟨r, by simp⟩)
  | ',' :: r => some (.comma, ⟨r, by simp⟩)
  | ':' :: r => some (.colon, ⟨r, by simp⟩)
  | 'n' :: 'u' :: 'l' :: 'l' :: r => some (.null, ⟨r, by simp only [List.length_cons]; omega⟩)
  | 't' :: 'r' :: 'u' :: 'e' :: r => some (.bool true, ⟨r, by simp only [List.length_cons]; omega⟩)
  | 'f' :: 'a' :: 'l' :: 's' :: 'e' :: r => some (.bool false, ⟨r, by simp only [List.length_cons]; omega⟩)
  | '"' :: r => do
    let (s, ⟨rest, h⟩) ← scanString r
    return (.string s, ⟨rest, by simp only [List.length_cons]; omega⟩)
  | '-' :: r => do
    let (n, ⟨rest, h⟩) ← scanUnsigned true r
    return (.number n, ⟨rest, by simp only [List.length_cons]; omega⟩)
  | cs => do
    let (n, rest) ← scanUnsigned false cs
    return (.number n, rest)

/-- The tokens of a text, or nothing if it does not split into tokens. -/
def tokens (cs : List Char) : Option (List Token) :=
  match cs with
  | [] => some []
  | c :: r =>
    if isJsonBlank c then tokens r
    else
      match scanToken (c :: r) with
      | none => none
      | some (token, ⟨rest, _⟩) => (tokens rest).map (token :: ·)
termination_by cs.length
decreasing_by all_goals simp only [List.length_cons] at *; omega

end AgentLoop.Json
