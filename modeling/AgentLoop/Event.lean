import AgentLoop.ErrorCode
import AgentLoop.Time.Instant

/-!
# Events

What a run reports about itself.  Times of day and measured durations are filled in by whoever keeps an event;
a run leaves them at their defaults, except for the length of the whole execution on the run's own clock.
-/

namespace AgentLoop

inductive Event where
  | responseGenerated (model : String) (tokensUsed : UInt32) (durationMs : UInt64 := 0) (timestamp : Instant := {})
  | toolExecuted (tool : String) (success : Bool) (durationMs : UInt64 := 0) (timestamp : Instant := {})
  | retryScheduled (attempt : UInt32) (delayMs : UInt64) (message : String) (timestamp : Instant := {})
  | executionCompleted (success : Bool) (code : Option ErrorCode) (toolCalls tokensUsed : UInt32)
      (durationMs : UInt64) (timestamp : Instant := {})
  deriving DecidableEq, Repr

end AgentLoop
