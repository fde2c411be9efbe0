import AgentLoop.Error
import AgentLoop.Message
import AgentLoop.Number.Floating
import AgentLoop.Tool
import AgentLoop.Usage

/-!
# Providers

The boundary to the model.  A provider answers a request with a whole response, or with chunks that arrive one
after the other; what it answers may depend on all the requests it has had before.
-/

namespace AgentLoop

/-- One call of a model. -/
structure Request where
  model : String
  system : String
  messages : List Message
  temperature : Floating
  maxTokens : Option UInt32 := none
  tools : List ToolDefinition := []
  responseFormat : Option String := none
  stream : Bool := false
  deriving Repr

structure Response where
  message : Message
  usage : Option Usage := none
  model : String
  deriving DecidableEq, Repr

structure Chunk where
  content : Option String := none
  calls : List CallRequest := []
  done : Bool := false
  usage : Option Usage := none
  deriving DecidableEq, Repr

/-- What arrives on a stream: a chunk, an error, or nothing any more although the stream stays open. -/
inductive StreamItem where
  | chunk (c : Chunk)
  | failure (e : ProviderError)
  | silence
  deriving DecidableEq, Repr

/-- The items of a stream come with the time that passes before each. -/
inductive Reply where
  | whole (response : Response)
  | stream (items : List (Nat × StreamItem))
  deriving DecidableEq, Repr

structure Provider where
  reply : (earlier : List Request) → Request → Reaction (Except ProviderError Reply)

end AgentLoop
