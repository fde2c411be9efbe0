/-!
# Occurrences

Whether a text holds another one.
-/

namespace AgentLoop.Text

/-- The phrase occurs somewhere in the text. -/
def occurs (phrase : List Char) : List Char → Bool
  | [] => phrase.isEmpty
  | c :: cs => phrase.isPrefixOf (c :: cs) || occurs phrase cs

theorem occurs_iff {phrase cs : List Char} : occurs phrase cs ↔ phrase <:+: cs := by
  induction cs with
  | nil => simp [occurs]
  | cons c cs ih =>
    simp only [occurs, Bool.or_eq_true, List.isPrefixOf_iff_prefix, ih, List.infix_cons_iff]

end AgentLoop.Text
