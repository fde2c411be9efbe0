import AgentLoop.Journal

/-!
# Consulting hooks

A chain asks its hooks in order, each after the one before it has answered.  Each consultation is noted before the
hook does anything.
-/

namespace AgentLoop.HookChain

variable {S : Signature}

/-- Asks one after the other until one answers something else than to proceed. -/
def firstVerdict (asks : List (Process S (Except HookError Verdict))) : Process S (Except HookError Verdict) :=
  match asks with
  | [] => pure (.ok .proceed)
  | ask :: rest =>
    ask.bind fun
      | .ok .proceed => firstVerdict rest
      | answer => pure answer

variable (note : Entry → Process S Unit) (hooks : List Hook) (context : HookContext)

def beforeStart : Process S (Except HookError Verdict) :=
  firstVerdict <| hooks.filterMap fun h => h.beforeStart.map fun answer => do
    note (.beforeStart h.name context)
    Process.react (answer context)

def beforeToolCall (nth : Nat) (call : ToolCall) : Process S (Except HookError Verdict) :=
  firstVerdict <| hooks.filterMap fun h => h.beforeToolCall.map fun answer => do
    note (.beforeToolCall h.name context call)
    Process.react (answer context nth call)

/-- Tells every hook; that one fails makes no difference. -/
def afterToolCall (nth : Nat) (call : ToolCall) (result : ToolResult) : Process S Unit :=
  hooks.forM fun h =>
    match h.afterToolCall with
    | none => pure ()
    | some answer => do
      note (.afterToolCall h.name context call result)
      let _ ← Process.react (answer context nth call result)

/-- Tells every hook; that one fails makes no difference. -/
def afterComplete (result : ExecutionResult) : Process S Unit :=
  hooks.forM fun h =>
    match h.afterComplete with
    | none => pure ()
    | some answer => do
      note (.afterComplete h.name context result)
      let _ ← Process.react (answer context result)
      note (.afterCompleteEnd h.name)

/-! ### By itself -/

/-- The points at which hooks are consulted. -/
inductive Occasion where
  | beforeStart
  | beforeToolCall (nth : Nat) (call : ToolCall)
  | afterToolCall (nth : Nat) (call : ToolCall) (result : ToolResult)
  | afterComplete (result : ExecutionResult)

/-- The course of a consultation; only before something happens is there a verdict. -/
def course (occasion : Occasion) : Timeline Entry (Option (Except HookError Verdict)) :=
  let note (e : Entry) : Process (.notes Entry) Unit := Process.ask (S := .notes Entry) e
  Process.timeline <|
    match occasion with
    | .beforeStart => some <$> beforeStart note hooks context
    | .beforeToolCall nth call => some <$> beforeToolCall note hooks context nth call
    | .afterToolCall nth call result => (fun _ => none) <$> afterToolCall note hooks context nth call result
    | .afterComplete result => (fun _ => none) <$> afterComplete note hooks context result

end AgentLoop.HookChain
