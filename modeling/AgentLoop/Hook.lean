import AgentLoop.Command

/-!
# Hooks

Interceptors at four points of a run.  Before the start and before a tool call the hooks are asked in order, and the
first one that does not let things proceed has the last word.  After a tool call and after completion every hook is
told, and a failure of one changes nothing for the others.
-/

namespace AgentLoop

/-- What a hook wants to happen.  A modification replaces the arguments of a call, or the prompt if it is text. -/
inductive Verdict where
  | proceed
  | reject (reason : String)
  | modify (replacement : Json)
  | pending (reason : String)
  deriving Repr

/-- What every hook is shown. -/
structure HookContext where
  prompt : String
  metadata : Metadata := []
  deriving DecidableEq, Repr

/-- A hook takes part in the points that it has an answer for.  Around tool calls it may answer by the number of the
call in its run as well. -/
structure Hook where
  name : String
  beforeStart : Option (HookContext → Reaction (Except HookError Verdict)) := none
  beforeToolCall : Option (HookContext → Nat → ToolCall → Reaction (Except HookError Verdict)) := none
  afterToolCall : Option (HookContext → Nat → ToolCall → ToolResult → Reaction (Except HookError Unit)) := none
  afterComplete : Option (HookContext → ExecutionResult → Reaction (Except HookError Unit)) := none

end AgentLoop
