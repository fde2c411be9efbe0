import AgentLoop.Tokens

/-!
# The context window

The messages of a request have to fit into what the window leaves after the system prompt and the reserve for the
answer.  They are shed in units: an assistant message goes together with the tool messages that answer it, any
other message goes alone.  The units before the last user message are shed first and those after it next, oldest
first on both sides; the last user message itself is never shed.
-/

namespace AgentLoop

/-- A message with its place in the conversation and its cost. -/
structure Item where
  position : Nat
  message : Message
  tokens : Nat
  deriving DecidableEq, Repr

namespace Item

/-- The messages of a conversation with their places and costs. -/
def ofMessages (ms : List Message) : List Item :=
  ms.zipIdx.map fun (m, i) => ⟨i, m, Tokens.estimateMessage m⟩

def cost (items : List Item) : Nat := Tokens.total (items.map (·.tokens))

end Item

/-- Messages that are shed together, in order. -/
abbrev MessageUnit := List Item

namespace MessageUnit

def cost (units : List MessageUnit) : Nat := Tokens.total (units.map Item.cost)

/-- The directly following tool messages that answer the calls of `first`. -/
def belongs (first next : Item) : Bool :=
  first.message.requestsTools && first.message.answers next.message

/-- The messages grouped into units, from left to right. -/
def group : List Item → List MessageUnit
  | [] => []
  | first :: rest => (first :: rest.takeWhile (belongs first)) :: group (rest.dropWhile (belongs first))
termination_by items => items.length
decreasing_by
  have := (List.dropWhile_suffix (l := rest) (belongs first)).length_le
  simp only [List.length_cons]
  omega

/-- Sheds units from the front until the rest fits into the budget together with `others`. -/
def shed (budget others : Nat) : List MessageUnit → List MessageUnit
  | [] => []
  | u :: us => if cost (u :: us) + others ≤ budget then u :: us else shed budget others us

end MessageUnit

/-- The items before the last user message, that message, and the items after it; all are after it if there is no
user message. -/
def splitAtLastUser (items : List Item) : List Item × Option Item × List Item :=
  let isUser (i : Item) : Bool := i.message.role == .user
  let after := (items.reverse.takeWhile fun i => !isUser i).reverse
  match items.reverse.dropWhile fun i => !isUser i with
  | [] => ([], none, after)
  | current :: before => (before.reverse, some current, after)

structure Trimmed where
  kept : List Item
  budget : Nat
  dropped : Nat

namespace Trimmed

def messages (t : Trimmed) : List Message := t.kept.map (·.message)

def tokens (t : Trimmed) : Nat := Item.cost t.kept

/-- False when even the current turn alone is too large. -/
def fits (t : Trimmed) : Bool := t.tokens ≤ t.budget

end Trimmed

structure Window where
  maxContext : Nat
  maxOutput : Nat
  deriving DecidableEq, Repr

namespace Window

/-- The same window with another reserve for the answer. -/
def withOutputReserve (w : Window) (reserve : Nat) : Window := { w with maxOutput := reserve }

/-- What is left for messages. -/
def budget (w : Window) (system : String) : Nat := w.maxContext - Tokens.estimate system - w.maxOutput

/-- The items that stay. -/
def keep (budget : Nat) (items : List Item) : List Item :=
  let (before, current, after) := splitAtLastUser items
  let older := MessageUnit.group before
  let newer := MessageUnit.group after
  let fixed := Item.cost current.toList
  let older := MessageUnit.shed budget (fixed + MessageUnit.cost newer) older
  let newer := MessageUnit.shed budget (fixed + MessageUnit.cost older) newer
  older.flatten ++ current.toList ++ newer.flatten

def trim (w : Window) (system : String) (ms : List Message) : Trimmed :=
  let budget := w.budget system
  let kept := keep budget (Item.ofMessages ms)
  ⟨kept, budget, ms.length - kept.length⟩

end Window

end AgentLoop
