import AgentLoop.Message
import AgentLoop.Number.Floating

/-!
# Token estimates

Characters fall into four classes with different weights: four Latin characters to a token, three of the East Asian
scripts to two tokens, one pictograph to a token, and three of anything else.  The weighted sum is computed in
binary floating point, class by class, and rounded up at the end.
-/

namespace AgentLoop.Tokens

inductive CharClass where
  | latin
  | eastAsian
  | pictograph
  | other
  deriving DecidableEq, Repr

def classOf (c : Char) : CharClass :=
  let n := c.toNat
  let within (low high : Nat) : Bool := low ≤ n && n ≤ high
  if within 0 0x24F then .latin
  -- Hangul, kana, and the ideographs with their extensions and compatibility forms
  else if within 0x1100 0x11FF || within 0x3130 0x318F || within 0xAC00 0xD7AF || within 0x3040 0x309F ||
      within 0x30A0 0x30FF || within 0x31F0 0x31FF || within 0x4E00 0x9FFF || within 0x3400 0x4DBF ||
      within 0xF900 0xFAFF || within 0x20000 0x2FA1F then .eastAsian
  -- symbols, dingbats, the emoji blocks, the emoji variation selector and the joiner
  else if within 0x2600 0x27BF || within 0x1F000 0x1FAFF || n == 0xFE0F || n == 0x200D then .pictograph
  else .other

/-- How many characters of a text are in a class. -/
def count (k : CharClass) (s : String) : Nat := s.toList.countP fun c => classOf c == k

/-- A quotient in double precision. -/
def quotient (num den : Nat) : Rat := (FloatFormat.double.round false num den).value

/-- A sum in double precision. -/
def sum (x y : Rat) : Rat := (FloatFormat.double.roundRat (x + y)).value

def estimate (s : String) : Nat :=
  let latin := quotient (count .latin s) 4
  let eastAsian := quotient (2 * count .eastAsian s) 3
  let pictograph := quotient (count .pictograph s) 1
  let other := quotient (count .other s) 3
  (sum (sum (sum latin eastAsian) pictograph) other).ceil.toNat

/-- The sum of costs. -/
def total : List Nat → Nat
  | [] => 0
  | n :: ns => n + total ns

theorem total_append (xs ys : List Nat) : total (xs ++ ys) = total xs + total ys := by
  induction xs with
  | nil => simp [total]
  | cons n ns ih => simp [total, ih, Nat.add_assoc]

/-- What every message costs beyond its text. -/
def messageOverhead : Nat := 4

/-- An assistant message also pays for the names and arguments of the calls it requests. -/
def estimateMessage (m : Message) : Nat :=
  let calls := if m.role = .assistant then m.calls else []
  messageOverhead + estimate m.content + total (calls.map fun c => estimate c.name + estimate c.arguments)

def estimateMessages (ms : List Message) : Nat := total (ms.map estimateMessage)

theorem messageOverhead_le_estimateMessage (m : Message) : messageOverhead ≤ estimateMessage m := by
  simp only [estimateMessage]
  omega

end AgentLoop.Tokens
