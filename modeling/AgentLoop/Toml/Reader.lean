import AgentLoop.Text.Scan
import AgentLoop.Toml.Basic

/-!
# Reading TOML

The grammar of TOML 1.0.  Values may be nested to a fixed depth.  Dates and times are read and checked, but nothing
is kept of them.
-/

namespace AgentLoop.Toml.Grammar

open Scan (peek char exactly text takeWhile skipWhile many)

/-! ### Blanks and comments -/

def isSpace (c : Char) : Bool := c == ' ' || c == '\t'

/-- Characters that may stand in a comment or in a literal string. -/
def isPlain (c : Char) : Bool := c == '\t' || (0x20 ≤ c.toNat && c.toNat != 0x7F)

def spaces : Scan Unit := skipWhile isSpace

def newline : Scan Unit := exactly '\n' <|> (exactly '\r' *> exactly '\n')

def comment : Scan Unit := exactly '#' *> skipWhile isPlain

/-- Blanks, line ends and comments, as they may stand between the items of an array. -/
def gap : Scan Unit := do
  let _ ← many ((do let _ ← char isSpace) <|> newline <|> (comment *> newline))

/-- The end of a line, perhaps with a comment before it. -/
def lineEnd : Scan Unit := do
  spaces
  let _ ← optional comment
  unless ← Scan.atEnd do newline

/-! ### Strings -/

def hexDigitValue? (c : Char) : Option Nat :=
  if isDigit c then some (c.toNat - 48)
  else if 'a' ≤ c && c ≤ 'f' then some (c.toNat - 87)
  else if 'A' ≤ c && c ≤ 'F' then some (c.toNat - 55)
  else none

/-- The character with a code of so many hexadecimal digits. -/
def coded (digits : Nat) : Scan Char := do
  let ds ← Scan.takeUpTo digits fun c => (hexDigitValue? c).isSome
  let n := ds.foldl (fun n c => 16 * n + (hexDigitValue? c).getD 0) 0
  if ds.length = digits ∧ (n < 0xD800 ∨ (0xDFFF < n ∧ n < 0x110000)) then return Char.ofNat n else failure

def escaped : Scan Char := do
  exactly '\\'
  match ← char fun _ => true with
  | 'b' => return '\x08'
  | 't' => return '\t'
  | 'n' => return '\n'
  | 'f' => return '\x0c'
  | 'r' => return '\r'
  | '"' => return '"'
  | '\\' => return '\\'
  | 'u' => coded 4
  | 'U' => coded 8
  | _ => failure

def basicChar : Scan Char := char (fun c => isPlain c && c != '"' && c != '\\') <|> escaped

def basicString : Scan String := do
  exactly '"'
  let cs ← many basicChar
  exactly '"'
  return String.ofList cs

def literalString : Scan String := do
  exactly '\''
  let cs ← takeWhile fun c => isPlain c && c != '\''
  exactly '\''
  return String.ofList cs

/-- A backslash at the end of a line takes all blanks and line ends after it along. -/
def continuation : Scan (List Char) := do
  exactly '\\'
  spaces
  newline
  let _ ← many ((do let _ ← char isSpace) <|> newline)
  return []

/-- Up to two quotation marks that do not begin the closing three. -/
def innerQuotes (mark : Char) : Scan (List Char) := do
  let run := (← get).takeWhile (· == mark)
  -- of three or more the last three close the string, and at most two may stand before them
  let n := if run.length < 3 then run.length else run.length - 3
  if n = 0 ∨ 2 < n then failure
  set ((← get).drop n)
  return List.replicate n mark

def multilineString (mark : Char) (piece : Scan (List Char)) : Scan String := do
  text (String.ofList [mark, mark, mark])
  let _ ← optional newline
  let pieces ← many (piece <|> (newline *> pure ['\n']) <|> innerQuotes mark)
  text (String.ofList [mark, mark, mark])
  return String.ofList pieces.flatten

def multilineBasicString : Scan String :=
  multilineString '"' ((do return [← basicChar]) <|> continuation)

def multilineLiteralString : Scan String :=
  multilineString '\'' (do return [← char fun c => isPlain c && c != '\''])

def string : Scan String :=
  multilineBasicString <|> multilineLiteralString <|> basicString <|> literalString

/-! ### Numbers -/

/-- Digits with single underscores between them. -/
def digitRun (p : Char → Bool) : Scan (List Char) := do
  let first ← char p
  let rest ← many (char p <|> (exactly '_' *> char p))
  return first :: rest

/-- True for a minus sign. -/
def sign : Scan Bool := do
  match ← optional (char fun c => c == '+' || c == '-') with
  | some c => return c == '-'
  | none => return false

/-- Decimal digits without a superfluous leading zero. -/
def wholeDigits : Scan (List Char) := do
  match ← peek with
  | some '0' => return [← char isDigit]
  | _ => digitRun isDigit

def ofDigitsIn (base : Nat) (cs : List Char) : Nat :=
  cs.foldl (fun n c => base * n + (hexDigitValue? c).getD 0) 0

/-- Integers have sixty-four bits. -/
def checkedInteger (i : Int) : Scan Toml :=
  if -(Int64.maxValue.toInt + 1) ≤ i ∧ i ≤ Int64.maxValue.toInt then return .integer i else failure

def prefixedInteger (mark : Char) (base : Nat) : Scan Toml := do
  exactly '0'
  exactly mark
  let digits ← digitRun fun c => (hexDigitValue? c).any (· < base)
  checkedInteger (ofDigitsIn base digits)

def integer : Scan Toml :=
  prefixedInteger 'x' 16 <|> prefixedInteger 'o' 8 <|> prefixedInteger 'b' 2 <|> do
    let negative ← sign
    let n := ofDigits (← wholeDigits)
    checkedInteger (if negative then -(n : Int) else n)

def exponentPart : Scan Int := do
  let _ ← char fun c => c == 'e' || c == 'E'
  let negative ← sign
  let n := ofDigits (← digitRun isDigit)
  return if negative then -(n : Int) else n

/-- A number beyond the range is an error if it is positive, and an infinity if it is negative. -/
def decimalFloat : Scan Toml := do
  let negative ← sign
  let whole ← wholeDigits
  let fraction ← optional (exactly '.' *> digitRun isDigit)
  let exponent ← optional exponentPart
  if fraction.isNone && exponent.isNone then failure
  let digits := fraction.getD []
  let x := Decimal.toFloating .double
    { negative, digits := ofDigits (whole ++ digits), exponent := exponent.getD 0 - digits.length }
  if x = .infinite false then failure else return .float x

def specialFloat : Scan Toml := do
  let negative ← sign
  (do text "inf"; return .float (.infinite negative)) <|> (do text "nan"; return .float .nan)

/-! ### Dates and times -/

/-- Exactly so many digits, whose number lies within bounds. -/
def fixedDigits (count low high : Nat) : Scan Nat := do
  let ds ← Scan.takeUpTo count isDigit
  let n := ofDigits ds
  if ds.length = count ∧ low ≤ n ∧ n ≤ high then return n else failure

def monthLength (year month : Nat) : Nat :=
  if month = 2 then (if year % 4 = 0 ∧ (year % 100 ≠ 0 ∨ year % 400 = 0) then 29 else 28)
  else if month = 4 ∨ month = 6 ∨ month = 9 ∨ month = 11 then 30 else 31

def date : Scan Unit := do
  let year ← fixedDigits 4 0 9999
  exactly '-'
  let month ← fixedDigits 2 1 12
  exactly '-'
  let _ ← fixedDigits 2 1 (monthLength year month)

def clockTime : Scan Unit := do
  let _ ← fixedDigits 2 0 23
  exactly ':'
  let _ ← fixedDigits 2 0 59
  exactly ':'
  let _ ← fixedDigits 2 0 60
  let _ ← optional do
    exactly '.'
    let digits ← takeWhile isDigit
    if digits.isEmpty then failure

def timeOffset : Scan Unit :=
  (do let _ ← char fun c => c == 'Z' || c == 'z') <|> do
    let _ ← char fun c => c == '+' || c == '-'
    let _ ← fixedDigits 2 0 23
    exactly ':'
    let _ ← fixedDigits 2 0 59

def moment : Scan Toml := do
  (do
    date
    let _ ← optional do
      let _ ← char fun c => c == 'T' || c == 't' || c == ' '
      clockTime
      let _ ← optional timeOffset) <|> clockTime
  return .moment

/-! ### Keys, values and lines -/

def isBareKeyChar (c : Char) : Bool :=
  isDigit c || ('a' ≤ c && c ≤ 'z') || ('A' ≤ c && c ≤ 'Z') || c == '-' || c == '_'

def keyPart : Scan String := basicString <|> literalString <|> do
  let cs ← takeWhile isBareKeyChar
  if cs.isEmpty then failure
  return String.ofList cs

/-- How deep values may be nested, and how many parts a dotted key may have. -/
def maxDepth : Nat := 80

/-- A key: the path of a dotted key and its last part. -/
def key : Scan (List String × String) := do
  let first ← keyPart
  let rest ← many (spaces *> exactly '.' *> spaces *> keyPart)
  let parts := first :: rest
  if maxDepth ≤ parts.length then failure
  return (parts.dropLast, parts.getLastD first)

def assignment (value : Scan Toml) : Scan (List String × String × Toml) := do
  let (path, name) ← key
  spaces
  exactly '='
  spaces
  return (path, name, ← value)

/-- A value with at most `depth` further levels in it. -/
def value (depth : Nat) : Scan Toml := do
  match depth, ← peek with
  | _, some '"' | _, some '\'' => return .string (← string)
  | _, some 't' => text "true"; return .boolean true
  | _, some 'f' => text "false"; return .boolean false
  | depth + 1, some '[' =>
    exactly '['
    let first ← optional (gap *> value depth)
    let rest ← if first.isSome then many (gap *> exactly ',' *> gap *> value depth) else pure []
    gap
    if first.isSome then let _ ← optional (exactly ',')
    gap
    exactly ']'
    return .array (first.toList ++ rest)
  | depth + 1, some '\x7b' =>
    exactly '\x7b'
    spaces
    let first ← optional (assignment (value depth))
    let rest ← if first.isSome then many (spaces *> exactly ',' *> spaces *> assignment (value depth)) else pure []
    spaces
    exactly '\x7d'
    match inlineFields (first.toList ++ rest) with
    | some fields => return .table .inline fields
    | none => failure
  | _, _ => moment <|> decimalFloat <|> specialFloat <|> integer

/-- A line with something in it, without its end. -/
def line : Scan Line := do
  match ← peek with
  | some '[' =>
    exactly '['
    match ← optional (exactly '[') with
    | some _ =>
      spaces
      let (path, name) ← key
      spaces
      text "]]"
      return .arrayHeader path name
    | none =>
      spaces
      let (path, name) ← key
      spaces
      exactly ']'
      return .header path name
  | _ =>
    let (path, name, v) ← assignment (value (maxDepth - 1))
    return .entry path name v

/-- A line, empty or not, with its end. -/
def documentLine : Scan (Option Line) := do
  if ← Scan.atEnd then failure
  spaces
  match ← peek with
  | some '#' | some '\n' | some '\r' | none => lineEnd; return none
  | _ =>
    let l ← line
    lineEnd
    return some l

def document : Scan (List Line) := do
  let _ ← optional (exactly '\ufeff')
  return (← many documentLine).filterMap id

end AgentLoop.Toml.Grammar

namespace AgentLoop.Toml

/-- The fields of the root table of a document. -/
def read (s : String) : Option Fields := (Grammar.document.all? s).bind ofLines

end AgentLoop.Toml
