import AgentLoop.Guard
import AgentLoop.Serial.Provider

/-!
# Serialized commands, results and decisions
-/

namespace AgentLoop

namespace ErrorCode

def form : Form ErrorCode := .named text ofText?

end ErrorCode

namespace Span

/-- Whole seconds and nanoseconds beyond them.  Unlike other records a span has no room for unknown fields; more
nanoseconds than a second has are carried over, as far as seconds go. -/
def form : Form Span where
  write s := .object <| Json.entry "secs" .word64 (.ofNat (s.nanoseconds / 1000000000)) ++
    Json.entry "nanos" .word32 (.ofNat (s.nanoseconds % 1000000000))
  read j := do
    let known :=
      match j with
      | .object fields => fields.all fun entry => entry.1 == "secs" || entry.1 == "nanos"
      | _ => true
    if !known then none
    let r ← Record.of? ["secs", "nanos"] j
    let seconds ← r.required "secs" .word64
    let nanoseconds ← r.required "nanos" .word32
    let s : Span := ⟨seconds.toNat * 1000000000 + nanoseconds.toNat⟩
    if s.nanoseconds ≤ longest.nanoseconds then some s else none

end Span

namespace CommandOptions

def form : Form CommandOptions where
  write o := .object <| Json.entryIfSome "model" .string o.model ++
    Json.entryIfSome "temperature" .single o.temperature ++
    Json.entryIfSome "max_output_tokens" .word32 o.maxOutputTokens ++
    Json.entryIfSome "response_format" .string o.responseFormat
  read j := do
    let r ← Record.of? ["model", "temperature", "max_output_tokens", "response_format"] j
    return { model := ← r.withDefault "model" Form.string.nullable none
             temperature := ← r.withDefault "temperature" Form.single.nullable none
             maxOutputTokens := ← r.withDefault "max_output_tokens" Form.word32.nullable none
             responseFormat := ← r.withDefault "response_format" Form.string.nullable none }

end CommandOptions

namespace ExecutionError

def form : Form ExecutionError where
  write e := .object <| Json.entry "code" ErrorCode.form e.code ++ Json.entry "message" .string e.message
  read j := do
    let r ← Record.of? ["code", "message"] j
    return { code := ← r.required "code" ErrorCode.form
             message := ← r.required "message" .string }

end ExecutionError

namespace ExecutionResult

def form : Form ExecutionResult where
  write x := .object <| Json.entry "success" .boolean x.success ++
    Json.entry "content" Form.string.nullable x.content ++
    Json.entry "tools_used" Form.string.list x.toolsUsed ++ Json.entry "usage" Usage.form x.usage ++
    Json.entry "duration" Span.form x.duration ++ Json.entryIfAny "messages" Message.form x.messages ++
    Json.entryIfSome "error" ExecutionError.form x.error
  read j := do
    let r ← Record.of? ["success", "content", "tools_used", "usage", "duration", "messages", "error"] j
    return { success := ← r.required "success" .boolean
             content := ← r.optional "content" .string
             toolsUsed := ← r.required "tools_used" Form.string.list
             usage := ← r.required "usage" Usage.form
             duration := ← r.required "duration" Span.form
             messages := ← r.withDefault "messages" Message.form.list []
             error := ← r.withDefault "error" ExecutionError.form.nullable none }

end ExecutionResult

namespace GuardDecision

/-- The field that names the decision. -/
def tag : String := "decision"

/-- The other fields of a decision. -/
def ofFields? (decision : String) (rest : Json) : Option GuardDecision :=
  match decision, rest with
  | "allow", .object _ | "allow", .array [] => some .allow
  | "reject", rest => do
    let r ← Record.of? ["reason", "category"] rest
    return .reject (← r.required "reason" .string) (← r.required "category" .string)
  | _, _ => none

/-- The name of a decision is a field like the others, wherever it stands, or the first item of an array.  All fields
are looked at to find it, so that even the unknown ones have to be sound. -/
def form : Form GuardDecision where
  write
    | allow => .object (Json.entry tag .string "allow")
    | reject reason category => .object <| Json.entry tag .string "reject" ++ Json.entry "reason" .string reason ++
        Json.entry "category" .string category
  read j :=
    if !j.isSound then none
    else
      match j with
      | .object fields =>
        match fields.filter (·.1 == tag) with
        | [(_, .string decision)] => ofFields? decision (.object (fields.filter (·.1 != tag)))
        | _ => none
      | .array (.string decision :: rest) => ofFields? decision (.array rest)
      | _ => none

end GuardDecision

end AgentLoop
