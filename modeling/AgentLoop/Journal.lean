import AgentLoop.Event
import AgentLoop.Hook
import AgentLoop.Provider

/-!
# The journal

What the collaborators of a run see, in order of occurrence: each request to a model, each consultation of a hook,
guard, store or retriever, each tool that is entered, and each event that is recorded.
-/

namespace AgentLoop

inductive Entry where
  | asked (request : Request)
  | guardChecked (prompt : String)
  | beforeStart (hook : String) (context : HookContext)
  | beforeToolCall (hook : String) (context : HookContext) (call : ToolCall)
  | entered (tool : String) (arguments : Json)
  | afterToolCall (hook : String) (context : HookContext) (call : ToolCall) (result : ToolResult)
  | afterComplete (hook : String) (context : HookContext) (result : ExecutionResult)
  | afterCompleteEnd (hook : String)
  | loaded (session : Option String)
  | saved (session : Option String) (messages : List Message)
  | retrieved (query : String)
  | event (e : Event)
  deriving Repr

/-- Entries with the time of each. -/
abbrev Journal := List (Nat × Entry)

end AgentLoop
