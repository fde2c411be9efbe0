import AgentLoop.Time.Instant

/-!
# Messages

The turns of a conversation.  An assistant message may request tool calls; the tool messages that answer it follow
directly and name the calls by their ids.
-/

namespace AgentLoop

inductive Role where
  | user
  | assistant
  | system
  | tool
  deriving DecidableEq, Repr

/-- A tool call as a model asks for it; the arguments are text that should hold JSON. -/
structure CallRequest where
  id : String
  name : String
  arguments : String
  deriving DecidableEq, Repr

/-- The id and the time identify a message that is kept somewhere; nothing in a run reads them. -/
structure Message where
  id : String := ""
  role : Role
  content : String
  calls : List CallRequest := []
  callId : Option String := none
  timestamp : Instant := {}
  deriving DecidableEq, Repr

namespace Message

def ofUser (content : String) : Message := { role := .user, content }

def ofAssistant (content : String) : Message := { role := .assistant, content }

def ofCalls (content : String) (calls : List CallRequest) : Message := { role := .assistant, content, calls }

def ofResult (callId content : String) : Message := { role := .tool, content, callId := some callId }

/-- An assistant message that waits for tool results. -/
def requestsTools (m : Message) : Bool := m.role == .assistant && !m.calls.isEmpty

/-- A tool message that answers one of the calls of `request`. -/
def answers (request m : Message) : Bool :=
  m.role == .tool && (m.callId.any fun id => request.calls.any fun call => call.id == id)

end Message

end AgentLoop
