/-!
# Processes on a clock

A process acts on its surroundings, waits for the clock, and at last returns a value, breaks down, or hangs.  It is
a tree: after each effect it goes on by the answer it gets.  The effects a process may have and the answers to them
are its `Signature`; a process whose effects are answered by nothing but an acknowledgement leaves a `Timeline`.
-/

namespace AgentLoop

/-- Effects on the surroundings, and the answer to each. -/
structure Signature where
  Effect : Type
  Answer : Effect → Type

namespace Signature

/-- Nothing but notes that are taken down. -/
abbrev notes (ν : Type) : Signature := ⟨ν, fun _ => Unit⟩

end Signature

/-- `wait` lets the clock move; `yield` only lets others have their turn. -/
inductive Process (S : Signature) (α : Type) where
  | done (value : α)
  | act (effect : S.Effect) (next : S.Answer effect → Process S α)
  | wait (ticks : Nat) (next : Process S α)
  | yield (next : Process S α)
  | fault (message : String)
  | hang

/-- How work ends: with a value, in a breakdown, or never. -/
inductive Ending (α : Type) where
  | returns (value : α)
  | faults (message : String)
  | hangs
  deriving DecidableEq, Repr

/-- What a collaborator does when it is called: some time passes, and then its work ends. -/
structure Reaction (α : Type) where
  after : Nat := 0
  ending : Ending α
  deriving DecidableEq, Repr

/-- At once, with this value. -/
def Reaction.now {α : Type} (value : α) : Reaction α := ⟨0, .returns value⟩

namespace Process

variable {S : Signature} {α β : Type}

def bind (p : Process S α) (f : α → Process S β) : Process S β :=
  match p with
  | done a => f a
  | act e next => act e fun answer => (next answer).bind f
  | wait n next => wait n (next.bind f)
  | yield next => yield (next.bind f)
  | fault message => fault message
  | hang => hang

instance : Monad (Process S) where
  pure := done
  bind := bind

/-- Has an effect and returns the answer. -/
def ask (e : S.Effect) : Process S (S.Answer e) := act e done

def sleep (ticks : Nat) : Process S Unit := wait ticks (done ())

def pass : Process S Unit := yield (done ())

/-- Lives through the reaction of a collaborator. -/
def react (r : Reaction α) : Process S α :=
  wait r.after <|
    match r.ending with
    | .returns a => done a
    | .faults message => fault message
    | .hangs => hang

end Process

/-- Notes with the times at which they are taken, in order, and when and how all of it ends. -/
structure Timeline (ν α : Type) where
  beats : List (Nat × ν)
  length : Nat
  ending : Ending α
  deriving DecidableEq, Repr

namespace Timeline

variable {ν α : Type}

/-- What happens before an instant. -/
def before (limit : Nat) (t : Timeline ν α) : List (Nat × ν) := t.beats.takeWhile fun beat => beat.1 < limit

/-- The timeline if it is cut at an instant: without a value, unless it is over before. -/
def upTo (limit : Option Nat) (t : Timeline ν α) : Timeline ν (Option α) :=
  match t.ending, limit with
  | .hangs, none => { t with ending := .hangs }
  | .hangs, some n => ⟨t.before n, n, .returns none⟩
  | ending, limit =>
    if limit.any (· ≤ t.length) then ⟨t.before (limit.getD 0), limit.getD 0, .returns none⟩
    else
      match ending with
      | .returns a => { t with ending := .returns (some a) }
      | .faults message => { t with ending := .faults message }
      | .hangs => { t with ending := .hangs }

end Timeline

namespace Process

variable {ν α : Type}

/-- The timeline of a process that begins at time `now`. -/
def timelineFrom (now : Nat) : Process (.notes ν) α → Timeline ν α
  | done a => ⟨[], now, .returns a⟩
  | act n next =>
    let rest := timelineFrom now (next ())
    { rest with beats := (now, n) :: rest.beats }
  | wait n next => timelineFrom (now + n) next
  | yield next => timelineFrom now next
  | fault message => ⟨[], now, .faults message⟩
  | hang => ⟨[], now, .hangs⟩

def timeline (p : Process (.notes ν) α) : Timeline ν α := p.timelineFrom 0

/-- Takes notes at their times, the first `now` ticks being over. -/
def replay {S : Signature} (take : ν → Process S Unit) (now : Nat) : List (Nat × ν) → Process S Unit
  | [] => done ()
  | (t, n) :: rest => wait (t - now) ((take n).bind fun _ => replay take t rest)

/-- The process with another way to take its notes. -/
def mapNotes {S : Signature} (take : ν → Process S Unit) : Process (.notes ν) α → Process S α
  | done a => done a
  | act n next => (take n).bind fun _ => mapNotes take (next ())
  | wait n next => wait n (mapNotes take next)
  | yield next => yield (mapNotes take next)
  | fault message => fault message
  | hang => hang

end Process

/-! ### Laws of sequencing -/

namespace Process

variable {S : Signature} {α β γ : Type}

theorem bind_done (p : Process S α) : p.bind done = p := by
  induction p with
  | done => rfl
  | act e next ih => simp only [bind, ih]
  | wait n next ih => simp only [bind, ih]
  | yield next ih => simp only [bind, ih]
  | fault => rfl
  | hang => rfl

theorem bind_assoc (p : Process S α) (f : α → Process S β) (g : β → Process S γ) :
    (p.bind f).bind g = p.bind fun a => (f a).bind g := by
  induction p with
  | done => rfl
  | act e next ih => simp only [bind, ih]
  | wait n next ih => simp only [bind, ih]
  | yield next ih => simp only [bind, ih]
  | fault => rfl
  | hang => rfl

instance : LawfulMonad (Process S) :=
  LawfulMonad.mk' (Process S) bind_done (fun _ _ => rfl) bind_assoc

end Process

end AgentLoop
