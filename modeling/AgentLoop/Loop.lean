import AgentLoop.Retry
import AgentLoop.Round
import AgentLoop.Run
import AgentLoop.Window

/-!
# The loop

A run takes turns with the model.  Each turn sends the messages that fit into the window; a reply that asks for
tools is followed by a round of tool calls, and any other reply is the answer.  Once the limit of tool calls is
reached no more tools are offered, and the reply to such a request is the answer whatever it asks for.
-/

namespace AgentLoop

/-- The parameters of a run that do not come from its conversation. -/
structure LoopSettings where
  model : String
  temperature : Floating
  maxOutputTokens : Option UInt32 := none
  responseFormat : Option String := none
  maxToolCalls : UInt32
  deriving DecidableEq, Repr

/-- What a run starts from. -/
structure LoopInput where
  system : String
  history : List Message := []
  user : Message
  tools : ToolSet := {}
  context : HookContext

/-- What a run comes to. -/
structure Outcome where
  answer : String
  transcript : List Message
  usage : Usage
  toolsUsed : List String
  toolCalls : Nat
  iterations : Nat
  deriving DecidableEq, Repr

/-- One reply of the model, however it was delivered. -/
structure Turn where
  text : String
  calls : List CallRequest
  usage : Option Usage
  model : String
  deriving DecidableEq, Repr

structure Loop where
  settings : LoopSettings
  window : Window
  policy : RetryPolicy
  hooks : List Hook := []
  recordsEvents : Bool := true
  streams : Bool := false
  /-- The random words that spread the delays of a turn's retries. -/
  draw : Nat → UInt64 := fun _ => 0
  /-- What the reader of arguments says of a text that it cannot read. -/
  readerFault : String → String := fun _ => ""

namespace Loop

/-- What a run has gathered when a turn begins. -/
structure State where
  messages : List Message
  usage : Usage := {}
  ledger : Ledger
  iterations : Nat := 0

variable (l : Loop)

def record (e : Event) : RunProcess Unit :=
  if l.recordsEvents then RunProcess.note (.event e) else pure ()

def attempt (request : Request) : RunProcess (Except ProviderError Reply) := do
  let reaction ← RunProcess.askModel request
  Process.react reaction

/-- A reply in full, to the request itself or once a stream is established. -/
def reply (request : Request) : RunProcess (Except RunError Reply) :=
  Retry.call l.policy l.draw l.record fun _ => attempt request

/-- Hands a delta to the consumer, waiting for room; false if the consumer is gone.  Also returns how long the
wait was. -/
def deliver (delta : String) : RunProcess (Bool × Nat) := do
  match ← RunProcess.room with
  | .gone => return (false, 0)
  | .free => RunProcess.put delta; return (true, 0)
  | .after ticks => Process.sleep ticks; RunProcess.put delta; return (true, ticks)

/-- Reads a stream to the first chunk that is marked as the last, or to its end.  The items arrive on their own
time: `spent` ticks have passed, and `due` is when the item before arrived. -/
def collect (spent due : Nat) (turn : Turn) : List (Nat × StreamItem) → RunProcess (Except RunError Turn)
  | [] => pure (.ok turn)
  | (gap, item) :: rest =>
    let due := due + gap
    .wait (due - spent) <|
      let spent := max spent due
      match item with
      | .silence => .hang
      | .failure e => pure (.error (.provider e))
      | .chunk chunk => do
        let delta := chunk.content.getD ""
        let (delivered, waited) ← if delta.isEmpty then pure (true, 0) else deliver delta
        if !delivered then return .error .cancelled
        let turn := { turn with
          text := turn.text ++ delta, calls := turn.calls ++ chunk.calls, usage := chunk.usage <|> turn.usage }
        if chunk.done then return .ok turn
        collect (spent + waited) due turn rest

/-- One turn of the model. -/
def takeTurn (request : Request) : RunProcess (Except RunError Turn) := do
  match ← l.reply request with
  | .error e => return .error e
  | .ok (.whole response) =>
    let message := response.message
    if request.stream then
      let chunk : Chunk :=
        { content := some message.content, calls := message.calls, done := true, usage := response.usage }
      collect 0 0 ⟨"", [], none, request.model⟩ [(0, .chunk chunk)]
    else return .ok ⟨message.content, message.calls, response.usage, response.model⟩
  | .ok (.stream items) =>
    Process.pass
    collect 0 0 ⟨"", [], none, request.model⟩ items

def request (input : LoopInput) (messages : List Message) (offer : Bool) : Request :=
  { model := l.settings.model
    system := input.system
    messages := (l.window.trim input.system messages).messages
    temperature := l.settings.temperature
    maxTokens := l.settings.maxOutputTokens
    tools := if offer then input.tools.definitions else []
    responseFormat := l.settings.responseFormat
    stream := l.streams }

def workshop (input : LoopInput) : Workshop :=
  { tools := input.tools
    hooks := l.hooks
    context := input.context
    recordsEvents := l.recordsEvents
    readerFault := l.readerFault }

/-- Plays a beat; the marks concern the ledger only. -/
def playBeat : Beat → RunProcess Unit
  | .entry e => RunProcess.note e
  | .used _ => pure ()

/-- A round of tool calls, and the ledger after it. -/
def playRound (input : LoopInput) (ledger : Ledger) (calls : List CallRequest) :
    RunProcess (Except RunError (List ToolResult × Ledger)) := do
  let round := (l.workshop input).round ledger calls
  Process.pass
  Process.replay playBeat 0 round.beats
  Process.sleep (round.length - (round.beats.getLast?.map (·.1)).getD 0)
  match round.ending with
  | .hangs => .hang
  | .faults message =>
    Process.pass
    return .error (.tool (.fault (Workshop.faultText message)))
  | .returns results =>
    Process.pass
    return .ok (results, Workshop.settle ledger calls round.beats)

/-- The usage of a run with that of a turn. -/
def State.used (s : State) (turn : Turn) : Usage :=
  match turn.usage with
  | some u => s.usage.accumulate u
  | none => s.usage

/-- The state after a turn and its round. -/
def State.after (s : State) (turn : Turn) (results : List ToolResult) (ledger : Ledger) : State :=
  let answered := results.map fun r => Message.ofResult r.callId r.output
  { messages := s.messages ++ Message.ofCalls turn.text turn.calls :: answered
    usage := s.used turn, ledger, iterations := s.iterations + 1 }

/-- What a run comes to with its last turn. -/
def State.outcome (s : State) (input : LoopInput) (turn : Turn) : Outcome :=
  { answer := turn.text
    transcript := (s.messages ++ [Message.ofAssistant turn.text]).drop input.history.length
    usage := s.used turn
    toolsUsed := s.ledger.used
    toolCalls := s.ledger.calls
    iterations := s.iterations + 1 }

/-- The turns from a state on.  At most `rounds` rounds of tool calls can follow, for each of them counts at least
one call. -/
def turns (input : LoopInput) (rounds : Nat) (s : State) : RunProcess (Except RunError Outcome) := do
  let offer := rounds != 0 && !input.tools.isEmpty && !s.ledger.limitReached
  match ← l.takeTurn (l.request input s.messages offer) with
  | .error e => return .error e
  | .ok turn =>
    l.record (.responseGenerated turn.model ((turn.usage.map (·.total)).getD 0))
    match rounds with
    | 0 => return .ok (s.outcome input turn)
    | rounds + 1 =>
      if offer && !turn.calls.isEmpty then
        match ← l.playRound input s.ledger turn.calls with
        | .error e => return .error e
        | .ok (results, ledger) => turns input rounds (s.after turn results ledger)
      else return .ok (s.outcome input turn)

def run (input : LoopInput) : RunProcess (Except RunError Outcome) :=
  let limit := l.settings.maxToolCalls.toNat
  l.turns input limit { messages := input.history ++ [input.user], ledger := { maxCalls := limit } }

/-- A run by itself, with the time at which it is cancelled if there is one, and the scene after it. -/
def perform (provider : Provider) (cancelAt : Option Nat) (input : LoopInput) (scene : Scene) :
    Ending (Except RunError Outcome) × Scene :=
  let cancelled (s : Scene) : Ending (Except RunError Outcome) × Scene :=
    match cancelAt with
    | some t => (.returns (.error .cancelled), s.atTime t)
    | none => (.hangs, s)
  if cancelAt = some 0 then cancelled scene
  else
    match (l.run input).play provider cancelAt scene with
    | (.finished outcome, s) => (.returns outcome, s)
    | (.broke message, s) => (.faults message, s)
    | (.paused .., s) | (.stuck, s) => cancelled s

end Loop

end AgentLoop
