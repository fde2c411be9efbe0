import AgentLoop.Event
import AgentLoop.Serial.Result

/-!
# Serialized events

An event is an object with one field, which is named for the kind of the event and holds the rest.
-/

namespace AgentLoop.Event

def ofKind? (kind : String) (rest : Json) : Option Event :=
  match kind with
  | "ResponseGenerated" => do
    let r ← Record.of? ["model", "tokens_used", "duration_ms", "timestamp"] rest
    return .responseGenerated (← r.required "model" .string) (← r.required "tokens_used" .word32)
      (← r.required "duration_ms" .word64) (← r.required "timestamp" Instant.form)
  | "ToolExecuted" => do
    let r ← Record.of? ["tool_name", "success", "duration_ms", "timestamp"] rest
    return .toolExecuted (← r.required "tool_name" .string) (← r.required "success" .boolean)
      (← r.required "duration_ms" .word64) (← r.required "timestamp" Instant.form)
  | "RetryScheduled" => do
    let r ← Record.of? ["attempt", "delay_ms", "error_message", "timestamp"] rest
    return .retryScheduled (← r.required "attempt" .word32) (← r.required "delay_ms" .word64)
      (← r.required "error_message" .string) (← r.required "timestamp" Instant.form)
  | "ExecutionCompleted" => do
    let r ← Record.of?
      ["success", "error_code", "tool_calls", "tokens_used", "duration_ms", "timestamp"] rest
    return .executionCompleted (← r.required "success" .boolean) (← r.optional "error_code" ErrorCode.form)
      (← r.required "tool_calls" .word32) (← r.required "tokens_used" .word32)
      (← r.required "duration_ms" .word64) (← r.required "timestamp" Instant.form)
  | _ => none

def kind : Event → String
  | responseGenerated .. => "ResponseGenerated"
  | toolExecuted .. => "ToolExecuted"
  | retryScheduled .. => "RetryScheduled"
  | executionCompleted .. => "ExecutionCompleted"

def fields : Event → List (String × Json)
  | responseGenerated model tokensUsed durationMs timestamp =>
    Json.entry "model" .string model ++ Json.entry "tokens_used" .word32 tokensUsed ++
      Json.entry "duration_ms" .word64 durationMs ++ Json.entry "timestamp" Instant.form timestamp
  | toolExecuted tool success durationMs timestamp =>
    Json.entry "tool_name" .string tool ++ Json.entry "success" .boolean success ++
      Json.entry "duration_ms" .word64 durationMs ++ Json.entry "timestamp" Instant.form timestamp
  | retryScheduled attempt delayMs message timestamp =>
    Json.entry "attempt" .word32 attempt ++ Json.entry "delay_ms" .word64 delayMs ++
      Json.entry "error_message" .string message ++ Json.entry "timestamp" Instant.form timestamp
  | executionCompleted success code toolCalls tokensUsed durationMs timestamp =>
    Json.entry "success" .boolean success ++ Json.entry "error_code" ErrorCode.form.nullable code ++
      Json.entry "tool_calls" .word32 toolCalls ++ Json.entry "tokens_used" .word32 tokensUsed ++
      Json.entry "duration_ms" .word64 durationMs ++ Json.entry "timestamp" Instant.form timestamp

def form : Form Event where
  write e := .object [(e.kind, .object e.fields)]
  read
    | .object [(kind, rest)] => ofKind? kind rest
    | _ => none

end AgentLoop.Event
