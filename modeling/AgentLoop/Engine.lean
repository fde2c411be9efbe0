import AgentLoop.Config.Basic
import AgentLoop.Guard
import AgentLoop.Loop

/-!
# The engine

An engine holds the collaborators and runs commands.  A run asks the guard and the hooks first, looks up the
history, has context retrieved, goes through the loop, and keeps the user's turn and the answer.  Guard and hooks
fail closed: whatever goes wrong with them refuses the command.  Store and retriever fail open: without them the run
goes on with less.
-/

namespace AgentLoop

structure Engine where
  provider : Provider
  config : Config := {}
  /-- Takes the place of the configured deadline. -/
  timeout : Option Span := none
  guard : Option Guard := none
  hooks : List Hook := []
  store : Option ConversationStore := none
  retriever : Option (String → Reaction (Except RetrievalError String)) := none
  recordsEvents : Bool := true
  /-- The random words that spread the delays of a turn's retries. -/
  draw : Nat → UInt64 := fun _ => 0
  /-- What the reader of arguments says of a text that it cannot read. -/
  readerFault : String → String := fun _ => ""

namespace Engine

/-- How many permits a pool can hold. -/
def maxPermits : Nat := 1 <<< 61 - 1

variable (e : Engine)

/-- The partners of its runs; without a store nobody asks for one. -/
def partners : Partners := { provider := e.provider, store := e.store.getD .atOnce }

/-- How many runs may be under way at a time. -/
def permits : Nat := max e.config.maxConcurrent.toNat 1

/-- An engine can only be built if its pool can hold its permits. -/
def isBuildable : Bool := e.permits ≤ maxPermits

/-- The deadline of a run, at most a day. -/
def deadline : Span := Span.min (e.timeout.getD e.config.executionTimeout) (.ofSeconds Config.maxTimeoutSeconds.toNat)

/-! ### Admission -/

def checkGuard (command : Command) : RunProcess (Except RunError Unit) :=
  match e.guard with
  | none | some .allowAll => pure (.ok ())
  | some (.asking check) => do
    RunProcess.note (.guardChecked command.prompt)
    match ← Process.react (check command) with
    | .ok .allow => return .ok ()
    | .ok (.reject reason category) => return .error (.rejected reason category)
    | .error failure => return .error (.rejected failure.message "guard_unavailable")

def hookContext (command : Command) : HookContext := ⟨command.prompt, command.metadata⟩

/-- The context with which the run goes on; only text can take the place of the prompt. -/
def admission (command : Command) : RunProcess (Except RunError HookContext) := do
  match ← e.checkGuard command with
  | .error refusal => return .error refusal
  | .ok () =>
    let context := hookContext command
    match ← HookChain.beforeStart RunProcess.note e.hooks context with
    | .ok .proceed => return .ok context
    | .ok (.modify (.string prompt)) => return .ok { context with prompt }
    | .ok (.modify _) => return .ok context
    | .ok (.reject reason) => return .error (.rejected reason "hook")
    | .ok (.pending reason) => return .error (.rejected ("approval pending: " ++ reason) "approval")
    | .error failure => return .error (.rejected failure.message "hook")

/-! ### History and retrieval -/

def keepsHistory : Bool := e.store.isSome

/-- The history of a command, or else that of its session as far as the store can tell. -/
def history (command : Command) : RunProcess (List Message) :=
  if !command.history.isEmpty then pure command.history
  else if !e.keepsHistory then pure []
  else do
    let reaction ← RunProcess.load command
    match ← Process.react reaction with
    | .ok messages => return messages
    | .error _ => return []

/-- Keeps the first and the last message of the transcript; nobody looks at what comes of it. -/
def keep (command : Command) (outcome : Outcome) : RunProcess Unit :=
  if !e.keepsHistory then pure ()
  else
    match outcome.transcript.head?, outcome.transcript.getLast? with
    | some user, some answer => do
      let reaction ← RunProcess.save command [user, answer]
      let _ ← Process.react reaction
    | _, _ => pure ()

/-- The system prompt with what was retrieved for the query, if that is anything. -/
def systemPrompt (system query : String) : RunProcess String :=
  match e.retriever with
  | some retrieve =>
    if !e.config.retrieval.enabled then pure system
    else do
      RunProcess.note (.retrieved query)
      match ← Process.react (retrieve query) with
      | .ok context =>
        if Text.isBlankText context then return system
        else return system ++ "\n\n" ++ e.config.retrieval.header ++ "\n" ++ context
      | .error _ => return system
  | none => pure system

/-! ### The run -/

def loop (command : Command) (streams : Bool) : Loop :=
  let config := e.config
  let options := command.options
  let maxOutput := options.maxOutputTokens.getD config.context.maxOutputTokens
  { settings :=
      { model := options.model.getD config.defaultModel
        temperature := options.temperature.getD config.defaultTemperature
        maxOutputTokens := some maxOutput
        responseFormat := options.responseFormat
        maxToolCalls := config.maxToolCalls }
    window := config.context.window.withOutputReserve maxOutput.toNat
    policy := config.retry.policy
    hooks := e.hooks
    recordsEvents := e.recordsEvents
    streams
    draw := e.draw
    readerFault := e.readerFault }

/-- From the admission of a command to the outcome of the loop. -/
def converse (command : Command) (streams : Bool) : RunProcess (Except RunError Outcome) := do
  match ← e.admission command with
  | .error refusal => return .error refusal
  | .ok context =>
    let history ← e.history command
    let system ← e.systemPrompt command.system context.prompt
    (e.loop command streams).run { system, history, user := .ofUser context.prompt, tools := command.tools, context }

/-- What happens while a run holds its permit. -/
def run (command : Command) (streams : Bool) : RunProcess (Except RunError Outcome) := do
  match ← e.converse command streams with
  | .error failure => return .error failure
  | .ok outcome =>
    e.keep command outcome
    return .ok outcome

/-! ### Results -/

def success (outcome : Outcome) (duration : Span) : ExecutionResult :=
  { success := true
    content := some outcome.answer
    toolsUsed := outcome.toolsUsed
    usage := outcome.usage
    duration
    messages := outcome.transcript
    error := none }

def cancelledText : String := "execution cancelled"

/-- A cancellation is reported without a look at its text. -/
def failure (error : RunError) (duration : Span) : ExecutionResult :=
  if error.isCancelled then .failure .unknown cancelledText duration
  else .failure (.ofError error) error.message duration

def timeoutText (deadline : Span) : String := "Execution timed out after " ++ deadline.text

def timedOut (duration : Span) : ExecutionResult :=
  .failure .timeout (timeoutText e.deadline) duration

/-- What the hooks are told once the result is fixed; they see the prompt of the command. -/
def afterComplete (command : Command) (result : ExecutionResult) : RunProcess Unit :=
  HookChain.afterComplete RunProcess.note e.hooks (hookContext command) result

def completed (result : ExecutionResult) (toolCalls : Nat) : Event :=
  .executionCompleted result.success result.code (.ofNat toolCalls) result.usage.total
    (.ofNat result.duration.milliseconds)

end Engine

end AgentLoop
