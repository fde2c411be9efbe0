import AgentLoop.Service.Advance

/-!
# Scenarios

What somebody does with an engine, one action after the other: invoke it, plainly or with a reader of the stream,
look at the history of a session, or do several things at once.  An action ends when all its answers are there; a
stream that was left early goes on in the background.
-/

namespace AgentLoop

inductive Action where
  /-- An invocation after a delay; a stream if there is somebody who reads it. -/
  | invoke (delay : Nat) (command : Command) (reader : Option Consumer) (cancelAfter : Option Nat)
  | look (delay : Nat) (session : String)
  | together (delay : Nat) (actions : List Action)

inductive Answer where
  | result (result : ExecutionResult) (elapsed : Nat)
  | chunks (chunks : List (String × Nat)) (elapsed : Nat)
  | history (messages : List Message)
  | several (answers : List Answer)
  deriving Repr

/-- Why an action has no answer. -/
inductive Mishap where
  | breakdown
  | hang
  deriving DecidableEq, Repr

/-- An action that is under way. -/
inductive Plan where
  | invocation (place start : Nat)
  | look (time place : Nat) (session : String)
  | several (plans : List Plan)

/-- A look at the history of a session: when, after how many invocations were started, and of which session. -/
structure Look where
  time : Nat
  place : Nat
  session : String
  deriving DecidableEq, Repr

namespace Plan

mutual

def places : Plan → List Nat
  | invocation place _ => [place]
  | look .. => []
  | several plans => placesOf plans

def placesOf : List Plan → List Nat
  | [] => []
  | plan :: rest => places plan ++ placesOf rest

end

mutual

def looks : Plan → List Look
  | invocation .. => []
  | look time place session => [⟨time, place, session⟩]
  | several plans => looksOf plans

def looksOf : List Plan → List Look
  | [] => []
  | plan :: rest => looks plan ++ looksOf rest

end

end Plan

namespace Engine

variable (e : Engine)

def bufferSize : Nat := 64

/-- A service that has done nothing yet. -/
def open? (store : Store) : Option Service :=
  if e.isBuildable then some { world := { store }, free := e.permits } else none

mutual

/-- Starts an action at a time. -/
def start (time : Nat) : Action → Service → Plan × Service
  | .invoke delay command reader cancelAfter, s =>
    let start := time + delay
    let place := s.invocations.length
    let invocation : Invocation :=
      { command
        streams := reader.isSome
        token := place
        start
        deadline := start + e.deadline.ticks
        feed := { capacity := some bufferSize, consumer := reader.getD {}, start } }
    let cancellations := s.cancellations ++ (cancelAfter.map fun ticks => (place, start + ticks)).toList
    (.invocation place start, { s with invocations := s.invocations ++ [invocation], cancellations })
  | .look delay session, s => (.look (time + delay) s.invocations.length session, s)
  | .together delay actions, s =>
    let (plans, s) := startAll (time + delay) actions s
    (.several plans, s)

def startAll (time : Nat) : List Action → Service → List Plan × Service
  | [], s => ([], s)
  | action :: rest, s =>
    let (plan, s) := start time action s
    let (plans, s) := startAll time rest s
    (plan :: plans, s)

end

/-- How long somebody who leaves a stream early stays. -/
def linger : Nat := 50

/-- When the answer of an invocation is there. -/
def answeredAt? (inv : Invocation) : Option Nat :=
  let closed := inv.endedAt?.map fun ended => max ended inv.feed.readyAt
  if !inv.streams then inv.endedAt?
  else if inv.feed.consumer.take.isNone then closed
  else (inv.dropsAt <|> closed).map (· + linger)

/-- The latest time at which one of the invocations is answered, if they all are. -/
def allAnsweredAt? (s : Service) : List Nat → Option Nat
  | [] => some 0
  | place :: rest => do
    let inv ← s.invocations[place]?
    return max (← answeredAt? inv) (← allAnsweredAt? s rest)

def answerOf (s : Service) (place start : Nat) : Except Mishap Answer :=
  match s.invocations[place]? with
  | none => .error .hang
  | some inv =>
    let elapsed := ((answeredAt? inv).getD start) - start
    if inv.streams then .ok (.chunks (inv.feed.taken.map fun (delta, time) => (delta, time - start)) elapsed)
    else
      match inv.stage with
      | .finished report _ => .ok (.result report.result elapsed)
      | .broken .. => .error .breakdown
      | _ => .error .hang

/-- What is seen at the looks, and the service after them. -/
def takeLooks : List Look → Service → List (Look × List Message) × Service
  | [], s => ([], s)
  | look :: rest, s =>
    let s := advance e (fun _ slot => slot.before ⟨look.time, 0, look.place⟩) s
    let (seen, later) := takeLooks rest s
    ((look, s.world.store.log look.session) :: seen, later)

mutual

def answer (s : Service) (seen : List (Look × List Message)) : Plan → Except Mishap Answer
  | .invocation place start => answerOf s place start
  | .look time place session => .ok (.history ((seen.lookup ⟨time, place, session⟩).getD []))
  | .several plans => (answerAll s seen plans).map .several

def answerAll (s : Service) (seen : List (Look × List Message)) : List Plan → Except Mishap (List Answer)
  | [] => .ok []
  | plan :: rest => do return (← answer s seen plan) :: (← answerAll s seen rest)

end

/-- An action with its answer; the clock stands at its end afterwards. -/
def perform (action : Action) (s : Service) : Except Mishap (Answer × Service) := do
  let (plan, s) := e.start s.now action { s with lap := 0 }
  let looks := plan.looks.mergeSort fun a b => a.time < b.time || (a.time == b.time && a.place ≤ b.place)
  let (seen, s) := e.takeLooks looks s
  let s := advance e (fun s slot => (allAnsweredAt? s plan.places).all (slot.time ≤ ·)) s
  match allAnsweredAt? s plan.places with
  | none => .error .hang
  | some answered =>
    let now := (looks.map (·.time)).foldl max (max s.now answered)
    let s := { s with world := { s.world with now } }
    return (← answer s seen plan, s)

end Engine

end AgentLoop
