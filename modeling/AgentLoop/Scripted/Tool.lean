import AgentLoop.Json.Printer
import AgentLoop.Tool

/-!
# Tools that play a script

A scripted tool waits and then does always the same: it breaks down, fails, looks something up, sleeps, answers with
a constant or gives its arguments back.
-/

namespace AgentLoop.Scripted

inductive Behaviour where
  | breakDown (message : String)
  | fail (e : ToolError)
  | lookUp (field : String) (table : List (String × String))
  | sleep (field : String)
  | constant (text : String)
  | echo
  deriving DecidableEq, Repr

namespace Behaviour

/-- Looks the argument up in the table. -/
def found (field : String) (table : List (String × String)) (arguments : Json) : Except ToolError String :=
  match (arguments.field? field).bind Json.string? with
  | some key => .ok ((lastField? key table).getD ("No data for " ++ key))
  | none => .error (.invalidArguments ("missing '" ++ field ++ "'"))

/-- The reaction after the delay. -/
def react (delay : Nat) (arguments : Json) : Behaviour → Reaction (Except ToolError String)
  | breakDown message => ⟨delay, .faults message⟩
  | fail e => ⟨delay, .returns (.error e)⟩
  | lookUp field table => ⟨delay, .returns (found field table arguments)⟩
  | sleep field =>
    let ticks := ((arguments.field? field).bind Json.natural?).getD 0
    ⟨delay + ticks, .returns (.ok ("slept " ++ toString ticks ++ "ms"))⟩
  | constant text => ⟨delay, .returns (.ok text)⟩
  | echo => ⟨delay, .returns (.ok arguments.canonical.compact)⟩

end Behaviour

def tool (name description : String) (parameters : Json) (delay : Nat) (behaviour : Behaviour) : Tool where
  name
  description
  parameters
  execute _ arguments := behaviour.react delay arguments

end AgentLoop.Scripted
