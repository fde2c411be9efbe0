import AgentLoop.Text.Blank

/-!
# Scanning

A scanner reads from the front of a list of characters.  It either fails or returns a value and what is left.
-/

namespace AgentLoop

abbrev Scan := StateT (List Char) Option

namespace Scan

/-- The next character, which stays. -/
def peek : Scan (Option Char) := return (← get).head?

/-- The next character, which must satisfy the condition. -/
def char (p : Char → Bool) : Scan Char := do
  match ← get with
  | c :: r => if p c then set r; return c else failure
  | [] => failure

def exactly (c : Char) : Scan Unit := do
  let _ ← char (· == c)

def text (s : String) : Scan Unit := s.toList.forM exactly

/-- The longest run of characters that satisfy the condition. -/
def takeWhile (p : Char → Bool) : Scan (List Char) := do
  let cs ← get
  set (cs.dropWhile p)
  return cs.takeWhile p

/-- Such a run of at most `most` characters. -/
def takeUpTo (most : Nat) (p : Char → Bool) : Scan (List Char) := do
  let cs ← get
  let taken := (cs.take most).takeWhile p
  set (cs.drop taken.length)
  return taken

def skipWhile (p : Char → Bool) : Scan Unit := modify (·.dropWhile p)

def atEnd : Scan Bool := return (← get).isEmpty

/-- Nothing may be left. -/
def finish : Scan Unit := do
  unless ← atEnd do failure

/-- As many as there are, one after the other, but at most `most`. -/
def upTo {α : Type} (most : Nat) (p : Scan α) : Scan (List α) := do
  match most with
  | 0 => return []
  | most + 1 =>
    match ← optional p with
    | none => return []
    | some a => return a :: (← upTo most p)

/-- As many as there are, one after the other; each takes at least one character. -/
def many {α : Type} (p : Scan α) : Scan (List α) := do
  upTo (← get).length p

/-- The value of a scanner that reads the whole text. -/
def all? {α : Type} (p : Scan α) (s : String) : Option α :=
  ((do let a ← p; finish; return a : Scan α).run s.toList).map (·.1)

end Scan

end AgentLoop
