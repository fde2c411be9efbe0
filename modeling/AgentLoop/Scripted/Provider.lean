import AgentLoop.Provider

/-!
# Providers that play a script

A script is a list of steps, one for each call of a model, and a fallback for when they are used up.  Each model may
have a list of its own; the models without one share a list.
-/

namespace AgentLoop.Scripted

/-- What a step answers with.  A provider that does not send chunks has only the message, the usage and the model of
a reply. -/
inductive ProviderAnswer where
  | failure (e : ProviderError)
  | hang
  | reply (response : Response) (items : List (Nat × StreamItem))
  deriving DecidableEq, Repr

structure ProviderStep where
  delay : Nat := 0
  answer : ProviderAnswer
  deriving DecidableEq, Repr

structure ProviderScript where
  /-- The lists of the models that have one. -/
  byModel : List (String × List ProviderStep) := []
  /-- The list that the other models share. -/
  shared : List ProviderStep := []
  fallback : Option ProviderStep := none
  /-- Streams are sent in chunks instead of one whole reply. -/
  chunked : Bool := false
  deriving DecidableEq, Repr

namespace ProviderScript

def exhausted : ProviderError := .invalidResponse "script exhausted"

/-- The model whose list counts for a model, if it does not use the shared one. -/
def listOf (s : ProviderScript) (model : String) : Option String :=
  if (s.byModel.lookup model).isSome then some model else none

def steps (s : ProviderScript) (model : String) : List ProviderStep := (s.byModel.lookup model).getD s.shared

/-- The step for a call after the earlier ones. -/
def step (s : ProviderScript) (earlier : List Request) (model : String) : ProviderStep :=
  let used := earlier.countP fun r => s.listOf r.model == s.listOf model
  ((s.steps model)[used]? <|> s.fallback).getD { answer := .failure exhausted }

/-- A response that goes to a stream is one chunk, or the chunks of the step. -/
def ending (s : ProviderScript) (stream : Bool) : ProviderAnswer → Ending (Except ProviderError Reply)
  | .failure e => .returns (.error e)
  | .hang => .hangs
  | .reply response items => .returns (.ok (if s.chunked && stream then .stream items else .whole response))

def provider (s : ProviderScript) : Provider where
  reply earlier request :=
    let step := s.step earlier request.model
    ⟨step.delay, s.ending request.stream step.answer⟩

end ProviderScript

end AgentLoop.Scripted
