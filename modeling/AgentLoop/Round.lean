import AgentLoop.HookChain
import AgentLoop.Json.Reader
import AgentLoop.Ledger
import AgentLoop.Text.Blank
import AgentLoop.Text.Quoted

/-!
# Rounds of tool calls

All tool calls of one model turn run side by side.  Each is a task with a timeline of its own; the timeline of the
round interleaves them by time, those of one instant in the order of the requests.  The results come in the order
of the requests, whatever the order of completion.  An ordinary failure is a result; a task that breaks down ends
the round, and what the others would still have done does not happen.
-/

namespace AgentLoop

/-- Something a tool task leaves behind: an entry of the journal, or the mark that a tool was used. -/
inductive Beat where
  | entry (e : Entry)
  | used (tool : String)
  deriving Repr

abbrev Task := Process (.notes Beat)

namespace Task

def note (e : Entry) : Task Unit := Process.ask (S := .notes Beat) (.entry e)

def markUsed (tool : String) : Task Unit := Process.ask (S := .notes Beat) (.used tool)

end Task

/-- What the tool calls of a run have in common. -/
structure Workshop where
  tools : ToolSet
  hooks : List Hook := []
  context : HookContext
  recordsEvents : Bool := true
  /-- What the reader of arguments says of a text that it cannot read. -/
  readerFault : String → String := fun _ => ""

namespace Workshop

/-- The arguments of a call; blank ones count as an empty object. -/
def readArguments (text : String) : Option Json :=
  if Text.isBlankText text then some Json.emptyObject else (Json.read text).map Json.canonical

def limitText (maxCalls : Nat) (tool : String) : String :=
  "Tool call limit reached (" ++ toString maxCalls ++ "); '" ++ tool ++ "' was not executed"

def blockedText (tool : String) (e : HookError) : String := "Tool call '" ++ tool ++ "' blocked: " ++ e.message

variable (w : Workshop)

def malformed (request : CallRequest) : ToolError :=
  .invalidArguments ("'" ++ request.name ++ "': " ++ w.readerFault request.arguments)

/-- Enters the body of the tool, and tells hooks and metrics about it afterwards. -/
def invoke (nth : Nat) (call : ToolCall) : Task ToolResult :=
  match w.tools.get? call.name with
  | none => pure ⟨call.id, false, (ToolError.notFound call.name).message⟩
  | some tool => do
    Task.note (.entered call.name call.arguments)
    let outcome ← Process.react (tool.execute nth call.arguments)
    Task.markUsed call.name
    let result : ToolResult :=
      match outcome with
      | .ok output => ⟨call.id, true, output⟩
      | .error e => ⟨call.id, false, "Error: " ++ e.message⟩
    HookChain.afterToolCall Task.note w.hooks w.context nth call result
    if w.recordsEvents then Task.note (.event (.toolExecuted call.name result.success))
    return result

/-- The call that the requests count as number `nth`.  Beyond the limit, with malformed arguments or against the
word of a hook it is not executed. -/
def execute (maxCalls nth : Nat) (request : CallRequest) : Task ToolResult :=
  let refused (output : String) : Task ToolResult := pure ⟨request.id, false, output⟩
  if maxCalls < nth then refused (limitText maxCalls request.name)
  else
    match readArguments request.arguments with
    | none => refused (w.malformed request).message
    | some arguments => do
      let call : ToolCall := ⟨request.id, request.name, arguments⟩
      match ← HookChain.beforeToolCall Task.note w.hooks w.context nth call with
      | .ok .proceed => w.invoke nth call
      | .ok (.modify replacement) => w.invoke nth { call with arguments := replacement }
      | .ok (.reject reason) => refused (ToolError.permissionDenied request.name reason).message
      | .ok (.pending reason) =>
        refused (ToolError.permissionDenied request.name ("pending approval: " ++ reason)).message
      | .error e => refused (blockedText request.name e)

end Workshop

/-! ### Side by side -/

namespace Timeline

variable {ν α : Type}

/-- Beats by time; those of `xs` first where the times agree. -/
def interleave : List (Nat × ν) → List (Nat × ν) → List (Nat × ν)
  | [], ys => ys
  | x :: xs, ys => ys.takeWhile (fun y => y.1 < x.1) ++ x :: interleave xs (ys.dropWhile fun y => y.1 < x.1)

theorem interleave_nil (xs : List (Nat × ν)) : interleave xs [] = xs := by
  induction xs with
  | nil => rfl
  | cons x xs ih => exact congrArg (x :: ·) ih

/-- Interleaving is merging: of two beats that could come next it is the earlier one that does. -/
theorem interleave_eq_merge (xs ys : List (Nat × ν)) : interleave xs ys = xs.merge ys fun x y => x.1 ≤ y.1 := by
  fun_induction List.merge xs ys fun x y => x.1 ≤ y.1 with
  | case1 ys => rfl
  | case2 xs => exact interleave_nil xs
  | case3 x xs y ys h ih =>
    have hlate : ¬ y.1 < x.1 := Nat.not_lt.2 (of_decide_eq_true h)
    simp [interleave, hlate, ih]
  | case4 x xs y ys h ih =>
    have hearly : y.1 < x.1 := by simpa using h
    simp only [interleave] at ih ⊢
    simp [hearly, ih]

/-- The first breakdown of several timelines: when, and with what message. -/
def firstFault : List (Timeline ν α) → Option (Nat × String)
  | [] => none
  | t :: rest =>
    match t.ending, firstFault rest with
    | .faults message, none => some (t.length, message)
    | .faults message, some (later, other) =>
      if t.length ≤ later then some (t.length, message) else some (later, other)
    | _, found => found

/-- The values of timelines that all return. -/
def values? : List (Timeline ν α) → Option (List α)
  | [] => some []
  | t :: rest =>
    match t.ending, values? rest with
    | .returns a, some as => some (a :: as)
    | _, _ => none

/-- Several timelines side by side.  The first breakdown ends them all, after everything that happens at its
instant. -/
def together (ts : List (Timeline ν α)) : Timeline ν (List α) :=
  let beats := (ts.map (·.beats)).foldr interleave []
  match firstFault ts with
  | some (instant, message) => ⟨beats.takeWhile fun beat => beat.1 ≤ instant, instant, .faults message⟩
  | none =>
    let length := (ts.map (·.length)).foldr max 0
    match values? ts with
    | some as => ⟨beats, length, .returns as⟩
    | none => ⟨beats, length, .hangs⟩

end Timeline

namespace Workshop

/-- The text of a breakdown. -/
def faultText (message : String) : String := "task # panicked with message " ++ Text.quoted message

/-- The round of these requests, and the ledger as far as it counts them. -/
def round (w : Workshop) (ledger : Ledger) (requests : List CallRequest) : Timeline Beat (List ToolResult) :=
  Timeline.together <| requests.zipIdx.map fun (request, i) =>
    (w.execute ledger.maxCalls (ledger.calls + i + 1) request).timeline

/-- The tools marked as used, in order. -/
def usedIn (beats : List (Nat × Beat)) : List String :=
  beats.filterMap fun
    | (_, .used tool) => some tool
    | _ => none

/-- The ledger after these requests were counted and these beats happened. -/
def settle (ledger : Ledger) (requests : List CallRequest) (beats : List (Nat × Beat)) : Ledger :=
  (ledger.record requests.length).markAll (usedIn beats)

/-- What came of a round by itself. -/
structure RoundReport where
  ending : Ending (Except RunError (List ToolResult))
  ledger : Ledger
  beats : List (Nat × Beat)
  length : Nat

/-- A round by itself, with the time after which it is cancelled if there is one.  Without requests there is nothing
to cancel, and what is cancelled from the start does not count its requests. -/
def perform (w : Workshop) (cancelAfter : Option Nat) (ledger : Ledger) (requests : List CallRequest) : RoundReport :=
  if requests.isEmpty then ⟨.returns (.ok []), ledger, [], 0⟩
  else if cancelAfter = some 0 then ⟨.returns (.error .cancelled), ledger, [], 0⟩
  else
    let t := (w.round ledger requests).upTo cancelAfter
    let ending :=
      match t.ending with
      | .returns (some results) => .returns (.ok results)
      | .returns none => .returns (.error .cancelled)
      | .faults message => .returns (.error (.tool (.fault (faultText message))))
      | .hangs => .hangs
    ⟨ending, settle ledger requests t.beats, t.beats, t.length⟩

end Workshop

end AgentLoop
