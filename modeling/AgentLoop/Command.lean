import AgentLoop.ErrorCode
import AgentLoop.Message
import AgentLoop.Number.Floating
import AgentLoop.Time.Span
import AgentLoop.Tool
import AgentLoop.Usage

/-!
# Commands and their results

A command asks the engine for one answer.  The engine always comes back with a result; a failure is a result with
an error and nothing else in it.
-/

namespace AgentLoop

/-- Options of the model; what is not given is taken from the configuration. -/
structure CommandOptions where
  model : Option String := none
  temperature : Option Floating := none
  maxOutputTokens : Option UInt32 := none
  responseFormat : Option String := none
  deriving DecidableEq, Repr

/-- Pairs of key and value for the collaborators, in the order of the keys. -/
abbrev Metadata := List (String × String)

structure Command where
  system : String := ""
  prompt : String
  options : CommandOptions := {}
  history : List Message := []
  tools : ToolSet := {}
  metadata : Metadata := []

/-- The key under which the conversation is named. -/
def sessionKey : String := "session_id"

def Command.session (c : Command) : Option String := c.metadata.lookup sessionKey

structure ExecutionError where
  code : ErrorCode
  message : String
  deriving DecidableEq, Repr

structure ExecutionResult where
  success : Bool
  content : Option String
  toolsUsed : List String
  usage : Usage
  duration : Span
  messages : List Message
  error : Option ExecutionError
  deriving DecidableEq, Repr

namespace ExecutionResult

def failure (code : ErrorCode) (message : String) (duration : Span) : ExecutionResult :=
  { success := false, content := none, toolsUsed := [], usage := {}, duration, messages := [],
    error := some ⟨code, message⟩ }

def code (r : ExecutionResult) : Option ErrorCode := r.error.map (·.code)

end ExecutionResult

end AgentLoop
