import AgentLoop.Error
import AgentLoop.Json.Basic
import AgentLoop.Process
import AgentLoop.Text.Quoted

/-!
# Tools

What a model can have done for it.  A `ToolSet` holds the tools offered for one command, in the order of their
names; of tools with one name the last one counts.
-/

namespace AgentLoop

/-- A call of a tool, its arguments already read. -/
structure ToolCall where
  id : String
  name : String
  arguments : Json
  deriving Repr

/-- What goes back to the model; the output of a failed call is the text of its error. -/
structure ToolResult where
  callId : String
  success : Bool
  output : String
  deriving DecidableEq, Repr

/-- What a model is told about a tool. -/
structure ToolDefinition where
  name : String
  description : String
  parameters : Json
  deriving Repr

/-- A tool may answer by the number of the call in its run as well as by the arguments. -/
structure Tool where
  name : String
  description : String := ""
  parameters : Json := .null
  execute : Nat → Json → Reaction (Except ToolError String)

def Tool.definition (t : Tool) : ToolDefinition := ⟨t.name, t.description, t.parameters⟩

/-- Tools by name, in increasing order of names. -/
structure ToolSet where
  entries : List (String × Tool) := []

namespace ToolSet

def insert (s : ToolSet) (t : Tool) : ToolSet := ⟨insertField t.name t s.entries⟩

def ofTools (tools : List Tool) : ToolSet := tools.foldl insert {}

def get? (s : ToolSet) (name : String) : Option Tool := s.entries.lookup name

def names (s : ToolSet) : List String := s.entries.map (·.1)

def definitions (s : ToolSet) : List ToolDefinition := s.entries.map fun entry => entry.2.definition

def size (s : ToolSet) : Nat := s.entries.length

def isEmpty (s : ToolSet) : Bool := s.entries.isEmpty

/-- The names for somebody who looks at the set. -/
def text (s : ToolSet) : String :=
  "ToolSet \x7b tools: [" ++ ", ".intercalate (s.names.map Text.quoted) ++ "] \x7d"

theorem get?_insert_self (s : ToolSet) (t : Tool) : (s.insert t).get? t.name = some t :=
  lookup_insertField_self ..

theorem get?_insert_ne (s : ToolSet) {t : Tool} {name : String} (h : name ≠ t.name) :
    (s.insert t).get? name = s.get? name :=
  lookup_insertField_ne h ..

end ToolSet

end AgentLoop
