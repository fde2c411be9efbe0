/-!
# Blank characters

The Unicode property White_Space, and trimming by it.  Configuration overrides, tool arguments and retrieved
context all count as empty when nothing but blanks is in them.
-/

namespace AgentLoop.Text

/-- The characters of the Unicode property White_Space. -/
def isBlank (c : Char) : Bool :=
  let n := c.toNat
  (9 ≤ n && n ≤ 13) || n == 0x20 || n == 0x85 || n == 0xA0 || n == 0x1680 || (0x2000 ≤ n && n ≤ 0x200A) ||
    n == 0x2028 || n == 0x2029 || n == 0x202F || n == 0x205F || n == 0x3000

/-- The characters without the blanks at both ends. -/
def trimmed (cs : List Char) : List Char :=
  ((cs.dropWhile isBlank).reverse.dropWhile isBlank).reverse

def trim (s : String) : String :=
  String.ofList (trimmed s.toList)

def isBlankText (s : String) : Bool :=
  s.toList.all isBlank

theorem trimmed_eq_nil_of_all {cs : List Char} (h : cs.all isBlank) : trimmed cs = [] := by
  have : cs.dropWhile isBlank = [] := by
    induction cs with
    | nil => rfl
    | cons c cs ih => simp_all [List.dropWhile]
  simp [trimmed, this]

end AgentLoop.Text
