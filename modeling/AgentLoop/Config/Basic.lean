import AgentLoop.Backoff
import AgentLoop.Window

/-!
# Configuration

The settings of an engine and their defaults.  `Config.fault?` names the first setting that is out of range.
-/

namespace AgentLoop

structure ContextConfig where
  maxContextTokens : UInt32 := 128000
  maxOutputTokens : UInt32 := 4096
  deriving DecidableEq, Repr

structure RetryConfig where
  maxAttempts : UInt32 := 3
  initialDelayMs : UInt64 := 500
  maxDelayMs : UInt64 := 8000
  /-- In double precision. -/
  jitter : Floating := FloatFormat.double.round false 1 4
  deriving DecidableEq, Repr

structure RetrievalConfig where
  enabled : Bool := true
  /-- Stands between the system prompt and what was retrieved. -/
  header : String := "## Retrieved Context"
  deriving DecidableEq, Repr

structure Config where
  defaultModel : String := "gpt-4o-mini"
  /-- In single precision. -/
  defaultTemperature : Floating := FloatFormat.single.round false 7 10
  maxConcurrent : UInt64 := 16
  timeoutSeconds : UInt64 := 120
  maxToolCalls : UInt32 := 10
  context : ContextConfig := {}
  retry : RetryConfig := {}
  retrieval : RetrievalConfig := {}
  deriving DecidableEq, Repr

namespace RetryConfig

def policy (c : RetryConfig) : RetryPolicy :=
  ⟨c.maxAttempts, .ofMilliseconds c.initialDelayMs.toNat, .ofMilliseconds c.maxDelayMs.toNat, c.jitter⟩

end RetryConfig

namespace ContextConfig

def window (c : ContextConfig) : Window := ⟨c.maxContextTokens.toNat, c.maxOutputTokens.toNat⟩

end ContextConfig

/-- A setting that is out of range. -/
inductive ConfigFault where
  | temperature
  | noConcurrency
  | noTimeout
  | timeoutTooLong
  | outputReserve
  | noAttempts
  | jitter
  | maxDelay
  deriving DecidableEq, Repr

namespace Config

/-- One day. -/
def maxTimeoutSeconds : UInt64 := 86400

def faultMessage : ConfigFault → String
  | .temperature => "default_temperature must be between 0.0 and 2.0"
  | .noConcurrency => "max_concurrent_executions must be > 0"
  | .noTimeout => "execution_timeout_secs must be > 0"
  | .timeoutTooLong => "execution_timeout_secs must be <= " ++ toString maxTimeoutSeconds.toNat
  | .outputReserve => "context.max_output_tokens must be smaller than context.max_context_tokens"
  | .noAttempts => "retry.max_attempts must be >= 1"
  | .jitter => "retry.jitter must be in [0.0, 1.0)"
  | .maxDelay => "retry.max_delay_ms must be >= retry.initial_delay_ms"

def zero : Floating := .finite false 0 0
def one : Floating := .finite false 1 0
def two : Floating := .finite false 1 1

/-- The first setting that is out of range. -/
def fault? (c : Config) : Option ConfigFault :=
  if c.defaultTemperature.lt zero || two.lt c.defaultTemperature then some .temperature
  else if c.maxConcurrent = 0 then some .noConcurrency
  else if c.timeoutSeconds = 0 then some .noTimeout
  else if maxTimeoutSeconds < c.timeoutSeconds then some .timeoutTooLong
  else if c.context.maxContextTokens ≤ c.context.maxOutputTokens then some .outputReserve
  else if c.retry.maxAttempts = 0 then some .noAttempts
  else if !zero.le c.retry.jitter || !c.retry.jitter.lt one then some .jitter
  else if c.retry.maxDelayMs < c.retry.initialDelayMs then some .maxDelay
  else none

/-- The deadline of a run, at most a day. -/
def executionTimeout (c : Config) : Span := .ofSeconds (min c.timeoutSeconds maxTimeoutSeconds).toNat

end Config

end AgentLoop
