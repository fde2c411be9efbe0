import AgentLoop.Message
import AgentLoop.Serial.Form

/-!
# Serialized messages
-/

namespace AgentLoop

namespace Role

def all : List Role := [user, assistant, system, tool]

def name : Role → String
  | user => "user"
  | assistant => "assistant"
  | system => "system"
  | tool => "tool"

def form : Form Role := .named name fun s => all.find? fun role => role.name == s

end Role

namespace Instant

def form : Form Instant := ⟨fun t => .string t.text, fun j => j.string?.bind read⟩

end Instant

namespace CallRequest

def form : Form CallRequest where
  write c := .object <| Json.entry "id" .string c.id ++ Json.entry "name" .string c.name ++
    Json.entry "arguments" .string c.arguments
  read j := do
    let r ← Record.of? ["id", "name", "arguments"] j
    return { id := ← r.required "id" .string
             name := ← r.required "name" .string
             arguments := ← r.required "arguments" .string }

end CallRequest

namespace Message

def form : Form Message where
  write m := .object <| Json.entry "id" .string m.id ++ Json.entry "role" Role.form m.role ++
    Json.entry "content" .string m.content ++ Json.entryIfAny "tool_calls" CallRequest.form m.calls ++
    Json.entryIfSome "tool_call_id" .string m.callId ++ Json.entry "timestamp" Instant.form m.timestamp
  read j := do
    let r ← Record.of? ["id", "role", "content", "tool_calls", "tool_call_id", "timestamp"] j
    return { id := ← r.required "id" .string
             role := ← r.required "role" Role.form
             content := ← r.required "content" .string
             calls := ← r.withDefault "tool_calls" CallRequest.form.list []
             callId := ← r.withDefault "tool_call_id" Form.string.nullable none
             timestamp := ← r.required "timestamp" Instant.form }

end Message

end AgentLoop
