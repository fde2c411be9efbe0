import AgentLoop.Command

/-!
# Guards

A guard is asked once about a command, before anything else happens.
-/

namespace AgentLoop

inductive GuardDecision where
  | allow
  | reject (reason category : String)
  deriving DecidableEq, Repr

inductive Guard where
  | allowAll
  | asking (check : Command → Reaction (Except GuardError GuardDecision))

end AgentLoop
