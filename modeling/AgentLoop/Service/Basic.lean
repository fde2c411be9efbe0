import AgentLoop.Descent
import AgentLoop.Engine

/-!
# Invocations under way

A service is an engine at work.  Its invocations share the clock, the journal, the store and the permits.  Each waits
for its start and for a permit, runs with the permit until its result is fixed, gives the permit back, has the hooks
told, and, if it failed while streaming, puts a last mark into its feed.
-/

namespace AgentLoop

/-- A place in the order of events.  Of those at one instant, what is made possible in a lap comes in the next one,
and those of a lap come in the order in which their invocations were started. -/
structure Slot where
  time : Nat
  lap : Nat := 0
  place : Nat := 0
  deriving DecidableEq, Repr

namespace Slot

def before (a b : Slot) : Bool :=
  a.time < b.time || (a.time == b.time && (a.lap < b.lap || (a.lap == b.lap && a.place < b.place)))

def earlier (a b : Slot) : Slot := if b.before a then b else a

/-- The earliest of several. -/
def earliest? : List Slot → Option Slot
  | [] => none
  | a :: rest => some (rest.foldl earlier a)

end Slot

/-- A process that goes on when its time comes. -/
structure Pending (α : Type) where
  due : Nat
  lap : Nat
  rest : RunProcess α

/-- What an invocation has come to when its permit is given back. -/
structure Report where
  result : ExecutionResult
  toolCalls : Nat := 0
  deriving DecidableEq, Repr

/-- How far an invocation has come.  A process that hangs is pending no more, and only a cut gets past it.  If it is
the telling of the hooks that breaks down, the result is fixed by then. -/
inductive Stage where
  | dormant
  | queued
  | granted (due lap : Nat)
  | running (pending : Option (Pending (Except RunError Outcome)))
  | closing (report : Report) (limit : Nat) (pending : Option (Pending Unit))
  | marking (report : Report) (ended due : Nat)
  | finished (report : Report) (ended : Nat)
  | broken (message : String) (ended : Nat) (fixed : Option Report)

namespace Stage

/-- The result, once it is fixed. -/
def report? : Stage → Option Report
  | closing report .. | marking report .. | finished report _ => some report
  | broken _ _ fixed => fixed
  | _ => none

/-- A stage comes before all stages of a higher rank. -/
def rank : Stage → Nat
  | dormant => 8
  | queued => 7
  | granted .. => 6
  | running (some _) => 5
  | running none => 4
  | closing _ _ (some _) => 3
  | closing _ _ none => 2
  | marking .. => 1
  | finished .. => 0
  | broken .. => 0

/-- `Beyond a b`: an invocation may get from `b` to `a`. -/
inductive Beyond : Stage → Stage → Prop where
  | rank {a b : Stage} (h : a.rank < b.rank) : Beyond a b
  | running {p q : Pending (Except RunError Outcome)} (h : Process.Within p.rest q.rest) :
      Beyond (running (some p)) (running (some q))
  | closing {report report' : Report} {limit limit' : Nat} {p q : Pending Unit} (h : Process.Within p.rest q.rest) :
      Beyond (closing report limit (some p)) (closing report' limit' (some q))

theorem Beyond.of_rank_le {a b : Stage} {n : Nat} (h : a.rank ≤ n) (hb : n < b.rank) : Beyond a b :=
  .rank (Nat.lt_of_le_of_lt h hb)

private theorem acc_running (ih : ∀ a : Stage, a.rank < 5 → Acc Beyond a) (p : RunProcess (Except RunError Outcome)) :
    ∀ due lap, Acc Beyond (running (some ⟨due, lap, p⟩)) := by
  induction Process.wellFounded_within.apply p with
  | intro p _ ihp =>
    intro due lap
    refine ⟨_, fun a h => ?_⟩
    cases h with
    | rank h => exact ih _ h
    | running h => exact ihp _ h _ _

private theorem acc_closing (ih : ∀ a : Stage, a.rank < 3 → Acc Beyond a) (p : RunProcess Unit) :
    ∀ report limit due lap, Acc Beyond (closing report limit (some ⟨due, lap, p⟩)) := by
  induction Process.wellFounded_within.apply p with
  | intro p _ ihp =>
    intro report limit due lap
    refine ⟨_, fun a h => ?_⟩
    cases h with
    | rank h => exact ih _ h
    | closing h => exact ihp _ h _ _ _ _

private theorem acc_beyond_of_rank (n : Nat) : ∀ a : Stage, a.rank < n → Acc Beyond a := by
  induction n with
  | zero => exact fun a h => absurd h (by omega)
  | succ n ih =>
    intro a ha
    match a with
    | running (some ⟨due, lap, p⟩) =>
      exact acc_running (fun b hb => ih b (by simp only [rank] at ha; omega)) p due lap
    | closing report limit (some ⟨due, lap, p⟩) =>
      exact acc_closing (fun b hb => ih b (by simp only [rank] at ha; omega)) p report limit due lap
    | dormant | queued | granted .. | running none | closing _ _ none | marking .. | finished .. | broken .. =>
      refine ⟨_, fun b h => ?_⟩
      cases h with
      | rank h => exact ih b (by simp only [rank] at ha h ⊢; omega)

theorem wellFounded_beyond : WellFounded Beyond := ⟨fun a => acc_beyond_of_rank _ a (Nat.lt_succ_self _)⟩

end Stage

/-- One run of a command.  Whoever holds the token can cancel all invocations that were given it. -/
structure Invocation where
  command : Command
  streams : Bool := false
  token : Nat
  start : Nat
  deadline : Nat
  feed : Feed := { capacity := none }
  stage : Stage := .dormant

namespace Invocation

/-- Not yet cut, and not yet with everything told. -/
def isLive (inv : Invocation) : Bool :=
  match inv.stage with
  | .dormant | .queued | .granted .. | .running _ | .closing .. => true
  | _ => false

/-- When the consumer of a streamed answer walks away, as far as that is settled. -/
def dropsAt (inv : Invocation) : Option Nat := if inv.streams then inv.feed.dropsAt else none

/-- When an invocation came to its end. -/
def endedAt? (inv : Invocation) : Option Nat :=
  match inv.stage with
  | .finished _ ended | .broken _ ended _ => some ended
  | _ => none

end Invocation

/-- What an engine at work shares among its invocations, and how far each of them has come. -/
structure Service where
  world : World := {}
  lap : Nat := 0
  /-- Permits that nobody holds. -/
  free : Nat
  /-- Who waits for a permit, in the order of asking. -/
  queue : List Nat := []
  invocations : List Invocation := []
  /-- Tokens that are or will be cancelled, with the time of it. -/
  cancellations : List (Nat × Nat) := []

namespace Service

def now (s : Service) : Nat := s.world.now

/-- When a token is cancelled: by its holder, or by a consumer of a streamed answer who walks away. -/
def cancelledAt (s : Service) (token : Nat) : Option Nat :=
  let drops := s.invocations.filterMap fun inv => if inv.isLive && inv.token == token then inv.dropsAt else none
  let held := s.cancellations.filterMap fun (t, time) => if t == token then some time else none
  (held ++ drops).min?

def isCancelled (s : Service) (token : Nat) : Bool := (s.cancelledAt token).any (· ≤ s.now)

/-- The stages of the invocations. -/
def stages (s : Service) : List Stage := s.invocations.map (·.stage)

/-- When an invocation has something to do next. -/
def slot? (s : Service) (place : Nat) (inv : Invocation) : Option Slot :=
  let slotAt (time : Nat) : Slot := if time ≤ s.now then ⟨s.now, s.lap + 1, place⟩ else ⟨time, 0, place⟩
  let cut := slotAt (((s.cancelledAt inv.token).map fun time => min time inv.deadline).getD inv.deadline)
  match inv.stage with
  | .dormant => some ⟨inv.start, if inv.streams then 1 else 0, place⟩
  | .queued => some cut
  | .granted due lap => some (Slot.earlier ⟨due, lap, place⟩ cut)
  | .running (some p) => some (Slot.earlier ⟨p.due, p.lap, place⟩ cut)
  | .running none => some cut
  | .closing _ limit (some p) => some (Slot.earlier ⟨p.due, p.lap, place⟩ (slotAt limit))
  | .closing _ limit none => some (slotAt limit)
  | .marking _ _ due => some (slotAt due)
  | .finished .. | .broken .. => none

/-- The next event. -/
def next? (s : Service) : Option Slot :=
  Slot.earliest? (s.invocations.zipIdx.filterMap fun (inv, place) => s.slot? place inv)

end Service

end AgentLoop
