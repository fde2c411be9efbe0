import AgentLoop.Feed
import AgentLoop.Journal
import AgentLoop.Store

/-!
# The surroundings of a run

What a run can do to its surroundings, and how these answer: entries go into the journal, requests to the provider,
loads and saves to the store, and deltas into the feed.  Provider and store are the `Partners` of a run, who react in
their own time.  `Process.play` lets a process run on the clock, up to a limit if there is one: what would happen at
the limit or later is left undone.
-/

namespace AgentLoop

inductive Effect where
  | note (e : Entry)
  | ask (request : Request)
  | load (command : Command)
  | save (command : Command) (messages : List Message)
  | room
  | put (delta : String)

namespace Effect

abbrev Answer : Effect → Type
  | note _ => Unit
  | ask _ => Reaction (Except ProviderError Reply)
  | load _ => Reaction (Except StoreError (List Message))
  | save .. => Reaction (Except StoreError Unit)
  | room => Room
  | put _ => Unit

end Effect

/-- The effects of runs. -/
abbrev runEffects : Signature := ⟨Effect, Effect.Answer⟩

abbrev RunProcess := Process runEffects

/-- Who reacts to the requests of a run, and to its loads and saves. -/
structure Partners where
  provider : Provider
  store : ConversationStore := .atOnce

instance : Coe Provider Partners := ⟨fun provider => { provider }⟩

/-- What the runs of an engine share: besides clock and journal what the partners were asked so far, and what is kept
of the conversations. -/
structure World where
  now : Nat := 0
  journal : Journal := []
  asked : List Request := []
  operations : List Store.Operation := []
  store : Store := { kind := .forgetful }

/-- What a run is among: the world it shares with others and the feed it has for itself. -/
structure Scene where
  world : World := {}
  feed : Feed := { capacity := none }

namespace Scene

def note (s : Scene) (e : Entry) : Scene :=
  { s with world := { s.world with journal := s.world.journal ++ [(s.world.now, e)] } }

def atTime (s : Scene) (t : Nat) : Scene := { s with world := { s.world with now := t } }

end Scene

/-- The answer to an effect and the scene after it. -/
def Effect.perform (partners : Partners) : (e : Effect) → Scene → e.Answer × Scene
  | note e, s => ((), s.note e)
  | ask request, s =>
    let answer := partners.provider.reply s.world.asked request
    let s := s.note (.asked request)
    (answer, { s with world := { s.world with asked := s.world.asked ++ [request] } })
  | load command, s =>
    let answer := partners.store.load s.world.operations s.world.store command
    let s := s.note (.loaded command.session)
    (answer, { s with world := { s.world with operations := s.world.operations ++ [.load command] } })
  | save command messages, s =>
    let (answer, store) := partners.store.save s.world.operations s.world.store command messages
    let s := s.note (.saved command.session messages)
    (answer, { s with world := { s.world with operations := s.world.operations ++ [.save command messages], store } })
  | room, s => (s.feed.room s.world.now, s)
  | put delta, s => ((), { s with feed := s.feed.put s.world.now delta })

/-- How far a process got: to its end, to a breakdown, to a wait beyond the limit, or to where it hangs. -/
inductive Stop (α : Type) where
  | finished (value : α)
  | broke (message : String)
  | paused (due : Nat) (rest : RunProcess α)
  | stuck

namespace Process

variable {α : Type}

def play (partners : Partners) (limit : Option Nat) : RunProcess α → Scene → Stop α × Scene
  | done a, s => (.finished a, s)
  | act e next, s =>
    let (answer, s) := e.perform partners s
    play partners limit (next answer) s
  | wait n next, s =>
    if n = 0 then play partners limit next s
    else
      let due := s.world.now + n
      if limit.any (· ≤ due) then (.paused due next, s) else play partners limit next (s.atTime due)
  | yield next, s =>
    if limit.any (· ≤ s.world.now) then (.paused s.world.now next, s) else play partners limit next s
  | fault message, s => (.broke message, s)
  | hang, s => (.stuck, s)

end Process

/-! ### The steps of a run -/

namespace RunProcess

def note (e : Entry) : RunProcess Unit := Process.ask (S := runEffects) (.note e)

def askModel (request : Request) : RunProcess (Reaction (Except ProviderError Reply)) :=
  Process.ask (S := runEffects) (.ask request)

def load (command : Command) : RunProcess (Reaction (Except StoreError (List Message))) :=
  Process.ask (S := runEffects) (.load command)

def save (command : Command) (messages : List Message) : RunProcess (Reaction (Except StoreError Unit)) :=
  Process.ask (S := runEffects) (.save command messages)

def room : RunProcess Room := Process.ask (S := runEffects) .room

def put (delta : String) : RunProcess Unit := Process.ask (S := runEffects) (.put delta)

end RunProcess

end AgentLoop
