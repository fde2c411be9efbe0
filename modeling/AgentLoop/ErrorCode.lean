import AgentLoop.Error
import AgentLoop.Text.Occurs

/-!
# Error codes

The stable code of a failure is read off the words of its message; the first group of phrases that occurs decides.
Letters are compared in lower case.  Only the phrases' own letters matter for that: apart from the capitals of
ASCII, the Kelvin sign and the dotted capital I are the only characters with a lower-case form that holds a letter
of ASCII.
-/

namespace AgentLoop

inductive ErrorCode where
  | rateLimited
  | timeout
  | contextTooLong
  | toolError
  | invalidResponse
  | rejected
  | unknown
  deriving DecidableEq, Repr

namespace ErrorCode

def all : List ErrorCode := [rateLimited, timeout, contextTooLong, toolError, invalidResponse, rejected, unknown]

def text : ErrorCode → String
  | rateLimited => "RATE_LIMITED"
  | timeout => "TIMEOUT"
  | contextTooLong => "CONTEXT_TOO_LONG"
  | toolError => "TOOL_ERROR"
  | invalidResponse => "INVALID_RESPONSE"
  | rejected => "REJECTED"
  | unknown => "UNKNOWN"

def ofText? (s : String) : Option ErrorCode := all.find? fun code => code.text == s

/-- The lower-case form of a character, as far as letters of ASCII are concerned. -/
def lower (c : Char) : List Char :=
  if c = '\u212a' then ['k']
  else if c = '\u0130' then ['i', '\u0307']
  else [c.toLower]

/-- The phrases that stand for a code, in the order in which they are looked for. -/
def phrases : List (ErrorCode × List String) :=
  [(rateLimited, ["rate limit", "rate-limit", "too many requests"]),
   (timeout, ["timeout", "timed out"]),
   (contextTooLong, ["context length", "context window", "context_length", "too long", "maximum context"]),
   (toolError, ["tool"]),
   (invalidResponse, ["invalid response"])]

def ofMessage (message : String) : ErrorCode :=
  let text := message.toList.flatMap lower
  match phrases.find? fun group => group.2.any fun phrase => Text.occurs phrase.toList text with
  | some group => group.1
  | none => unknown

/-- A refusal is a refusal whatever words its reason uses. -/
def ofError : RunError → ErrorCode
  | .rejected .. => rejected
  | e => ofMessage e.message

end ErrorCode

namespace ProviderError

/-- Worth another attempt: rate limits, timeouts, failures of the connection and of the server. -/
def isTransient : ProviderError → Bool
  | rateLimited _ | timeout _ | network _ | streamInterrupted _ => true
  | apiError status text =>
    if status = 408 ∨ status = 429 then true
    else if 500 ≤ status ∧ status ≤ 599 then true
    else if 400 ≤ status ∧ status ≤ 499 then false
    else
      match ErrorCode.ofMessage text with
      | .rateLimited | .timeout => true
      | _ => false
  | _ => false

end ProviderError

/-- The text that ends a failed stream. -/
def errorMarker (code : ErrorCode) (message : String) : String := "[ERROR " ++ code.text ++ "] " ++ message

end AgentLoop
