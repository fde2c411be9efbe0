import AgentLoop.Command
import AgentLoop.Process

/-!
# Conversation stores

The in-memory store keeps a log of messages per session, of which it may keep only the last ones.  The other store
keeps nothing.  To an engine a store is a collaborator like others: it may take its time before it answers, fail,
break down, or never answer.
-/

namespace AgentLoop

/-- The last `cap` elements, or all if there is no cap. -/
def lastUpTo {α : Type} (cap : Option Nat) (xs : List α) : List α :=
  match cap with
  | some n => xs.drop (xs.length - n)
  | none => xs

inductive StoreKind where
  | inMemory (cap : Option Nat)
  | forgetful
  deriving DecidableEq, Repr

structure Store where
  kind : StoreKind
  sessions : List (String × List Message) := []
  deriving DecidableEq, Repr

namespace Store

def name (s : Store) : String :=
  match s.kind with
  | .inMemory _ => "in_memory"
  | .forgetful => "none"

/-- What is kept of a session. -/
def log (s : Store) (session : String) : List Message := (s.sessions.lookup session).getD []

def load (s : Store) (session : Option String) : Except StoreError (List Message) :=
  match s.kind, session with
  | .forgetful, _ => .ok []
  | .inMemory _, none => .error .missingSession
  | .inMemory _, some id => .ok (s.log id)

/-- Puts a log in the place of that of a session. -/
def putLog (session : String) (log : List Message) : List (String × List Message) → List (String × List Message)
  | [] => [(session, log)]
  | (s, old) :: rest => if s = session then (s, log) :: rest else (s, old) :: putLog session log rest

def save (s : Store) (session : Option String) (messages : List Message) : Except StoreError Unit × Store :=
  match s.kind, session with
  | .forgetful, _ => (.ok (), s)
  | .inMemory _, none => (.error .missingSession, s)
  | .inMemory cap, some id =>
    (.ok (), { s with sessions := putLog id (lastUpTo cap (s.log id ++ messages)) s.sessions })

section

variable {s : Store} {cap : Option Nat}

theorem load_some (h : s.kind = .inMemory cap) (session : String) : s.load (some session) = .ok (s.log session) := by
  simp [load, h]

theorem load_none (h : s.kind = .inMemory cap) : s.load none = .error .missingSession := by
  simp [load, h]

theorem save_some (h : s.kind = .inMemory cap) (session : String) (messages : List Message) :
    s.save (some session) messages =
      (.ok (), { s with sessions := putLog session (lastUpTo cap (s.log session ++ messages)) s.sessions }) := by
  simp [save, h]

theorem save_none (h : s.kind = .inMemory cap) (messages : List Message) :
    s.save none messages = (.error .missingSession, s) := by
  simp [save, h]

theorem kind_save (s : Store) (session : Option String) (messages : List Message) :
    (s.save session messages).2.kind = s.kind := by
  unfold save
  split <;> rfl

end

/-- What is asked of a store on behalf of a command. -/
inductive Operation where
  | save (command : Command) (messages : List Message)
  | load (command : Command)

end Store

/-- A store as an engine calls it.  When and what it answers may depend on all the operations it was asked for before,
and on what is kept by then; whatever comes of a save, it says what is kept from the call on. -/
structure ConversationStore where
  load : (earlier : List Store.Operation) → Store → Command → Reaction (Except StoreError (List Message))
  save : (earlier : List Store.Operation) → Store → Command → List Message → Reaction (Except StoreError Unit) × Store

namespace ConversationStore

/-- Loads and saves at once. -/
def atOnce : ConversationStore where
  load _ kept command := .now (kept.load command.session)
  save _ kept command messages :=
    let (answer, kept) := kept.save command.session messages
    (.now answer, kept)

/-- Fails at once with these errors, as far as there are any. -/
def failing (load? save? : Option StoreError) : ConversationStore where
  load earlier kept command :=
    match load? with
    | some failure => .now (.error failure)
    | none => atOnce.load earlier kept command
  save earlier kept command messages :=
    match save? with
    | some failure => (.now (.error failure), kept)
    | none => atOnce.save earlier kept command messages

end ConversationStore

end AgentLoop
