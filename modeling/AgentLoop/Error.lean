/-!
# Causes of failure

Each collaborator has its own type of errors; `RunError` is what ends a run.  The wording of an error is in its
`message` and nowhere else.
-/

namespace AgentLoop

inductive ProviderError where
  | apiError (status : UInt16) (text : String)
  | rateLimited (retryAfterSeconds : UInt64)
  | authenticationFailed (text : String)
  | contextLengthExceeded (text : String)
  | invalidRequest (text : String)
  | modelNotFound (text : String)
  | invalidResponse (text : String)
  | streamInterrupted (text : String)
  | notConfigured (text : String)
  | timeout (text : String)
  | network (text : String)
  | cancelled
  deriving DecidableEq, Repr

def ProviderError.message : ProviderError → String
  | apiError status text => "API request failed: " ++ text ++ " (status: " ++ toString status.toNat ++ ")"
  | rateLimited seconds => "Rate limited by provider, retry after " ++ toString seconds.toNat ++ "s"
  | authenticationFailed text => "Authentication failed: " ++ text
  | contextLengthExceeded text => "Context length exceeded: " ++ text
  | invalidRequest text => "Malformed request: " ++ text
  | modelNotFound text => "Model not found: " ++ text
  | invalidResponse text => "Invalid response from provider: " ++ text
  | streamInterrupted text => "Stream interrupted: " ++ text
  | notConfigured text => "Provider not configured: " ++ text
  | timeout text => "Request timed out: " ++ text
  | network text => "Network error: " ++ text
  | cancelled => "Model call cancelled"

/-- The name of the cause. -/
def ProviderError.kind : ProviderError → String
  | apiError .. => "ApiError"
  | rateLimited _ => "RateLimited"
  | authenticationFailed _ => "AuthenticationFailed"
  | contextLengthExceeded _ => "ContextLengthExceeded"
  | invalidRequest _ => "InvalidRequest"
  | modelNotFound _ => "ModelNotFound"
  | invalidResponse _ => "InvalidResponse"
  | streamInterrupted _ => "StreamInterrupted"
  | notConfigured _ => "NotConfigured"
  | timeout _ => "Timeout"
  | network _ => "Network"
  | cancelled => "Cancelled"

inductive ToolError where
  | notFound (tool : String)
  | executionFailed (tool reason : String)
  | timeout (tool : String) (seconds : UInt64)
  | permissionDenied (tool reason : String)
  | invalidArguments (text : String)
  | fault (text : String)
  deriving DecidableEq, Repr

def ToolError.message : ToolError → String
  | notFound tool => "Tool not found: " ++ tool
  | executionFailed tool reason => "Tool execution failed: " ++ tool ++ ": " ++ reason
  | timeout tool seconds => "Tool timed out: " ++ tool ++ " after " ++ toString seconds.toNat ++ "s"
  | permissionDenied tool reason => "Permission denied: " ++ tool ++ ": " ++ reason
  | invalidArguments text => "Invalid tool arguments: " ++ text
  | fault text => "Tool task faulted: " ++ text

/-- The name of the cause. -/
def ToolError.kind : ToolError → String
  | notFound _ => "NotFound"
  | executionFailed .. => "ExecutionFailed"
  | timeout .. => "Timeout"
  | permissionDenied .. => "PermissionDenied"
  | invalidArguments _ => "InvalidArguments"
  | fault _ => "Fault"

/-- A hook that could not do its work. -/
structure HookError where
  hook : String
  reason : String
  deriving DecidableEq, Repr

def HookError.message (e : HookError) : String := "Hook '" ++ e.hook ++ "' failed: " ++ e.reason

inductive GuardError where
  | unavailable (text : String)
  | checkFailed (text : String)
  deriving DecidableEq, Repr

def GuardError.message : GuardError → String
  | unavailable text => "Guard unavailable: " ++ text
  | checkFailed text => "Guard check failed: " ++ text

inductive StoreError where
  | storage (text : String)
  | missingSession
  deriving DecidableEq, Repr

def StoreError.message : StoreError → String
  | storage text => "Storage error: " ++ text
  | missingSession => "Missing session id in command metadata"

/-- A retriever that found nothing out. -/
structure RetrievalError where
  text : String
  deriving DecidableEq, Repr

def RetrievalError.message (e : RetrievalError) : String := "Retrieval failed: " ++ e.text

/-- What ends a run.  A tool error gets here only when a tool task broke down; ordinary failures of tools are
results. -/
inductive RunError where
  | provider (error : ProviderError)
  | tool (error : ToolError)
  | rejected (reason category : String)
  | cancelled
  | internal (text : String)
  deriving DecidableEq, Repr

namespace RunError

def message : RunError → String
  | provider e => "Provider error: " ++ e.message
  | tool e => "Tool error: " ++ e.message
  | rejected reason category => "Rejected (" ++ category ++ "): " ++ reason
  | cancelled => "Execution cancelled"
  | internal text => "Internal error: " ++ text

/-- The name of the cause, after that of the collaborator it comes from. -/
def kind : RunError → String
  | provider e => "Provider." ++ e.kind
  | tool e => "Tool." ++ e.kind
  | rejected .. => "Rejected"
  | cancelled => "Cancelled"
  | internal _ => "Internal"

/-- Cancellation is a signal rather than a failure, at either level. -/
def isCancelled : RunError → Bool
  | cancelled => true
  | provider .cancelled => true
  | _ => false

end RunError

end AgentLoop
