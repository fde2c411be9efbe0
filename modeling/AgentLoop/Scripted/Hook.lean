import AgentLoop.Guard
import AgentLoop.Hook
import AgentLoop.Text.Occurs

/-!
# Hooks and guards that play a script

A scripted hook takes part in every point.  Around tool calls it has rules, of which the first that fits the call
decides; a scripted guard has rules, of which the first whose phrase is in the prompt decides.
-/

namespace AgentLoop.Scripted

abbrev HookAction := Reaction (Except HookError Verdict)

def proceed : HookAction := .now (.ok .proceed)

/-- An action for the calls of a tool, for a call of a certain id, or for all calls. -/
structure CallRule where
  id : Option String := none
  tool : Option String := none
  action : HookAction

def CallRule.fits (r : CallRule) (call : ToolCall) : Bool := r.id.all (· == call.id) && r.tool.all (· == call.name)

structure HookScript where
  beforeStart : HookAction := proceed
  beforeToolCall : List CallRule := []
  afterToolCall : List CallRule := []
  afterComplete : HookAction := proceed

namespace HookScript

/-- The action of the first rule that fits the call. -/
def actionFor (rules : List CallRule) (call : ToolCall) : HookAction :=
  ((rules.find? fun r => r.fits call).map (·.action)).getD proceed

/-- An action where a verdict makes no difference. -/
def toldOnly (action : HookAction) : Reaction (Except HookError Unit) where
  after := action.after
  ending :=
    match action.ending with
    | .returns (.ok _) => .returns (.ok ())
    | .returns (.error e) => .returns (.error e)
    | .faults message => .faults message
    | .hangs => .hangs

def hook (name : String) (s : HookScript) : Hook where
  name
  beforeStart := some fun _ => s.beforeStart
  beforeToolCall := some fun _ _ call => actionFor s.beforeToolCall call
  afterToolCall := some fun _ _ call _ => toldOnly (actionFor s.afterToolCall call)
  afterComplete := some fun _ _ => toldOnly s.afterComplete

end HookScript

structure GuardRule where
  phrase : String
  reaction : Reaction (Except GuardError GuardDecision)

def guard (rules : List GuardRule) : Guard :=
  .asking fun command =>
    match rules.find? fun r => Text.occurs r.phrase.toList command.prompt.toList with
    | some rule => rule.reaction
    | none => .now (.ok .allow)

end AgentLoop.Scripted
