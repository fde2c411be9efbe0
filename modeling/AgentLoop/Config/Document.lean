import AgentLoop.Config.Basic
import AgentLoop.Toml.Reader

/-!
# Configuration documents

How a configuration is written in TOML.  What a document leaves out has its default, and what it adds is ignored.  A
whole number may stand for a floating-point one but not the other way round, and an array may stand for a section,
its items being the settings in order.
-/

namespace AgentLoop

namespace Toml

def string? : Toml → Option String
  | string s => some s
  | _ => none

def boolean? : Toml → Option Bool
  | boolean b => some b
  | _ => none

/-- A natural number below the limit. -/
def naturalBelow? (limit : Nat) : Toml → Option Nat
  | integer (.ofNat n) => if n < limit then some n else none
  | _ => none

def word32? (t : Toml) : Option UInt32 := (t.naturalBelow? UInt32.size).map .ofNat

def word64? (t : Toml) : Option UInt64 := (t.naturalBelow? UInt64.size).map .ofNat

def floating? (f : FloatFormat) : Toml → Option Floating
  | integer i => some (f.round (i < 0) i.natAbs 1)
  | float x => some (x.convert f)
  | _ => none

/-- The settings of a section. -/
def settings? (names : List String) : Toml → Option Fields
  | table _ fields => some fields
  | array items | tableArray items => some (names.zip items)
  | _ => none

/-- A setting, or its default if it is not given. -/
def setting? {α : Type} (fields : Fields) (name : String) (default : α) (read : Toml → Option α) : Option α :=
  match fields.lookup name with
  | none => some default
  | some value => read value

end Toml

namespace Config

open Toml

def readLoop (t : Toml) : Option UInt32 := do
  let fields ← t.settings? ["max_tool_calls"]
  setting? fields "max_tool_calls" ({} : Config).maxToolCalls word32?

def readContext (t : Toml) : Option ContextConfig := do
  let fields ← t.settings? ["max_context_tokens", "max_output_tokens"]
  let d : ContextConfig := {}
  return { maxContextTokens := ← setting? fields "max_context_tokens" d.maxContextTokens word32?
           maxOutputTokens := ← setting? fields "max_output_tokens" d.maxOutputTokens word32? }

def readRetry (t : Toml) : Option RetryConfig := do
  let fields ← t.settings? ["max_attempts", "initial_delay_ms", "max_delay_ms", "jitter"]
  let d : RetryConfig := {}
  return { maxAttempts := ← setting? fields "max_attempts" d.maxAttempts word32?
           initialDelayMs := ← setting? fields "initial_delay_ms" d.initialDelayMs word64?
           maxDelayMs := ← setting? fields "max_delay_ms" d.maxDelayMs word64?
           jitter := ← setting? fields "jitter" d.jitter (floating? .double) }

def readRetrieval (t : Toml) : Option RetrievalConfig := do
  let fields ← t.settings? ["enabled", "header"]
  let d : RetrievalConfig := {}
  return { enabled := ← setting? fields "enabled" d.enabled boolean?
           header := ← setting? fields "header" d.header string? }

/-- The configuration that a document describes, whether its settings are in range or not. -/
def ofDocument? (fields : Fields) : Option Config := do
  let d : Config := {}
  return { defaultModel := ← setting? fields "default_model" d.defaultModel string?
           defaultTemperature :=
             ← setting? fields "default_temperature" d.defaultTemperature (floating? .single)
           maxConcurrent := ← setting? fields "max_concurrent_executions" d.maxConcurrent word64?
           timeoutSeconds := ← setting? fields "execution_timeout_secs" d.timeoutSeconds word64?
           maxToolCalls := ← setting? fields "loop" d.maxToolCalls readLoop
           context := ← setting? fields "context" d.context readContext
           retry := ← setting? fields "retry" d.retry readRetry
           retrieval := ← setting? fields "rag" d.retrieval readRetrieval }

/-! ### Writing -/

/-- A basic string: quotation marks, backslashes and controls are escaped. -/
def quotedSetting (s : String) : String :=
  let escape (c : Char) : List Char :=
    match c with
    | '"' => ['\\', '"']
    | '\\' => ['\\', '\\']
    | '\n' => ['\\', 'n']
    | c => [c]
  "\"" ++ String.ofList (s.toList.flatMap escape) ++ "\""

/-- A floating-point setting in double precision, in plain notation with a point. -/
def floatSetting (x : Floating) : String := (x.convert .double).withPoint .double

/-- The document that describes the configuration. -/
def text (c : Config) : String :=
  let setting (name value : String) : String := name ++ " = " ++ value ++ "\n"
  setting "default_model" (quotedSetting c.defaultModel) ++
  setting "default_temperature" (floatSetting c.defaultTemperature) ++
  setting "max_concurrent_executions" (toString c.maxConcurrent.toNat) ++
  setting "execution_timeout_secs" (toString c.timeoutSeconds.toNat) ++
  "\n[loop]\n" ++
  setting "max_tool_calls" (toString c.maxToolCalls.toNat) ++
  "\n[context]\n" ++
  setting "max_context_tokens" (toString c.context.maxContextTokens.toNat) ++
  setting "max_output_tokens" (toString c.context.maxOutputTokens.toNat) ++
  "\n[retry]\n" ++
  setting "max_attempts" (toString c.retry.maxAttempts.toNat) ++
  setting "initial_delay_ms" (toString c.retry.initialDelayMs.toNat) ++
  setting "max_delay_ms" (toString c.retry.maxDelayMs.toNat) ++
  setting "jitter" (floatSetting c.retry.jitter) ++
  "\n[rag]\n" ++
  setting "enabled" (if c.retrieval.enabled then "true" else "false") ++
  setting "header" (quotedSetting c.retrieval.header)

end Config

end AgentLoop
