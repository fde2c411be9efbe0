import AgentLoop.Backoff
import AgentLoop.Event
import AgentLoop.Process

/-!
# Retries

An attempt is repeated while it fails for a transient cause and attempts are left.  Between two attempts the retry
is recorded and its delay passes.  A cancelled call ends in cancellation, any other failure in its own error.
-/

namespace AgentLoop.Retry

variable {S : Signature} {α : Type}

/-- The delay cannot be represented. -/
def overflowText : String := "overflow when converting float to duration"

/-- Goes on after `made` attempts that failed, with `left` more than one still to make. -/
def attemptsFrom (policy : RetryPolicy) (draw : Nat → UInt64) (record : Event → Process S Unit)
    (attempt : Nat → Process S (Except ProviderError α)) (made left : Nat) : Process S (Except RunError α) :=
  (attempt made).bind fun
    | .ok value => pure (.ok value)
    | .error .cancelled => pure (.error .cancelled)
    | .error e =>
      if e.isTransient then
        match left with
        | 0 => pure (.error (.provider e))
        | left + 1 =>
          match policy.jitteredDelay? (.ofNat made) (draw made) with
          | none => .fault overflowText
          | some delay => do
            record (.retryScheduled (.ofNat (made + 1)) (.ofNat delay.milliseconds) e.message)
            Process.sleep delay.ticks
            attemptsFrom policy draw record attempt (made + 1) left
      else pure (.error (.provider e))

/-- The attempts are numbered from zero. -/
def call (policy : RetryPolicy) (draw : Nat → UInt64) (record : Event → Process S Unit)
    (attempt : Nat → Process S (Except ProviderError α)) : Process S (Except RunError α) :=
  attemptsFrom policy draw record attempt 0 (policy.attempts - 1)

/-! ### By itself -/

/-- What a call leaves behind. -/
inductive Note where
  | attempt
  | event (e : Event)
  deriving DecidableEq, Repr

/-- The course of a call that is cancelled at a time if one is given.  Each attempt is noted as it begins, and the
retries are if events are recorded. -/
def course (policy : RetryPolicy) (recordsEvents : Bool) (cancelAt : Option Nat)
    (attempt : Nat → Reaction (Except ProviderError α)) : Timeline Note (Option (Except RunError α)) :=
  let note (n : Note) : Process (.notes Note) Unit := Process.ask (S := .notes Note) n
  let record (e : Event) : Process (.notes Note) Unit := if recordsEvents then note (.event e) else pure ()
  (call policy (fun _ => 0) record fun n => do
    note .attempt
    Process.react (attempt n)).timeline.upTo cancelAt

end AgentLoop.Retry
