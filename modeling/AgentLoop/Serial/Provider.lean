import AgentLoop.Provider
import AgentLoop.Serial.Message

/-!
# Serialized requests, responses and tools
-/

namespace AgentLoop

namespace Usage

def form : Form Usage where
  write u := .object <| Json.entry "prompt_tokens" .word32 u.prompt ++
    Json.entry "completion_tokens" .word32 u.completion ++ Json.entry "total_tokens" .word32 u.total
  read j := do
    let r ← Record.of? ["prompt_tokens", "completion_tokens", "total_tokens"] j
    return { prompt := ← r.required "prompt_tokens" .word32
             completion := ← r.required "completion_tokens" .word32
             total := ← r.required "total_tokens" .word32 }

end Usage

namespace ToolCall

def form : Form ToolCall where
  write c := .object <| Json.entry "id" .string c.id ++ Json.entry "name" .string c.name ++
    Json.entry "arguments" .value c.arguments
  read j := do
    let r ← Record.of? ["id", "name", "arguments"] j
    return { id := ← r.required "id" .string
             name := ← r.required "name" .string
             arguments := ← r.required "arguments" .value }

end ToolCall

namespace ToolResult

def form : Form ToolResult where
  write t := .object <| Json.entry "call_id" .string t.callId ++ Json.entry "success" .boolean t.success ++
    Json.entry "output" .string t.output
  read j := do
    let r ← Record.of? ["call_id", "success", "output"] j
    return { callId := ← r.required "call_id" .string
             success := ← r.required "success" .boolean
             output := ← r.required "output" .string }

end ToolResult

namespace ToolDefinition

def form : Form ToolDefinition where
  write t := .object <| Json.entry "name" .string t.name ++ Json.entry "description" .string t.description ++
    Json.entry "parameters" .value t.parameters
  read j := do
    let r ← Record.of? ["name", "description", "parameters"] j
    return { name := ← r.required "name" .string
             description := ← r.required "description" .string
             parameters := ← r.required "parameters" .value }

end ToolDefinition

namespace Request

/-- The temperature of a request that does not give one, in single precision. -/
def defaultTemperature : Floating := FloatFormat.single.round false 7 10

def form : Form Request where
  write q := .object <| Json.entry "model" .string q.model ++ Json.entry "system" .string q.system ++
    Json.entry "messages" Message.form.list q.messages ++ Json.entry "temperature" .single q.temperature ++
    Json.entryIfSome "max_tokens" .word32 q.maxTokens ++ Json.entryIfAny "tools" ToolDefinition.form q.tools ++
    Json.entryIfSome "response_format" .string q.responseFormat ++ Json.entry "stream" .boolean q.stream
  read j := do
    let r ← Record.of?
      ["model", "system", "messages", "temperature", "max_tokens", "tools", "response_format", "stream"] j
    return { model := ← r.required "model" .string
             system := ← r.required "system" .string
             messages := ← r.required "messages" Message.form.list
             temperature := ← r.withDefault "temperature" .single defaultTemperature
             maxTokens := ← r.withDefault "max_tokens" Form.word32.nullable none
             tools := ← r.withDefault "tools" ToolDefinition.form.list []
             responseFormat := ← r.withDefault "response_format" Form.string.nullable none
             stream := ← r.withDefault "stream" .boolean false }

end Request

namespace Response

def form : Form Response where
  write a := .object <| Json.entry "message" Message.form a.message ++
    Json.entry "usage" Usage.form.nullable a.usage ++ Json.entry "model" .string a.model
  read j := do
    let r ← Record.of? ["message", "usage", "model"] j
    return { message := ← r.required "message" Message.form
             usage := ← r.optional "usage" Usage.form
             model := ← r.required "model" .string }

end Response

namespace Chunk

def form : Form Chunk where
  write c := .object <| Json.entry "content" Form.string.nullable c.content ++
    Json.entryIfAny "tool_calls" CallRequest.form c.calls ++ Json.entry "done" .boolean c.done ++
    Json.entryIfSome "usage" Usage.form c.usage
  read j := do
    let r ← Record.of? ["content", "tool_calls", "done", "usage"] j
    return { content := ← r.withDefault "content" Form.string.nullable none
             calls := ← r.withDefault "tool_calls" CallRequest.form.list []
             done := ← r.withDefault "done" .boolean false
             usage := ← r.withDefault "usage" Usage.form.nullable none }

end Chunk

end AgentLoop
