import AgentLoop.Service.Basic

/-!
# One step of a service

The clock moves to the next event, and the invocation that it belongs to does what it can do at that instant.  Of
several reasons to do something, cancellation comes first, then the work itself, then the deadline.
-/

namespace AgentLoop

namespace Service

variable (s : Service)

/-- The clock moves to a slot. -/
def atSlot (slot : Slot) : Service := { s with world := { s.world with now := slot.time }, lap := slot.lap }

/-- Puts an invocation in its place, with its next stage. -/
def put (place : Nat) (inv : Invocation) (stage : Stage) : Service :=
  { s with invocations := s.invocations.set place { inv with stage } }

/-- Gives a permit to one that waits for it. -/
def grant (place : Nat) : Service :=
  match s.invocations[place]? with
  | none => s
  | some inv =>
    match inv.stage with
    | .queued => s.put place inv (.granted s.now (s.lap + 1))
    | _ => s

/-- Gives a permit to the first in the queue, or back. -/
def release : Service :=
  match s.queue with
  | [] => { s with free := s.free + 1 }
  | first :: rest => { s with queue := rest }.grant first

/-- Somebody who waited for a permit does so no more. -/
def leaveQueue (place : Nat) : Service := { s with queue := s.queue.filter (· != place) }

/-- What is still to be done; if it is due at this instant it comes in the next lap. -/
def pendingAt {α : Type} (due : Nat) (rest : RunProcess α) : Pending α :=
  ⟨due, if due ≤ s.now then s.lap + 1 else 0, rest⟩

/-- A stream that its consumer has left takes the token with it. -/
def noteDrop (inv : Invocation) : Service :=
  match inv.dropsAt with
  | some time =>
    if inv.isLive && time ≤ s.now && !s.cancellations.contains (inv.token, time) then
      { s with cancellations := s.cancellations ++ [(inv.token, time)] }
    else s
  | none => s

/-! ### The end of an invocation -/

/-- Puts the mark that ends a failed stream into the feed, unless nobody reads it any more. -/
def putMark (place : Nat) (inv : Invocation) (report : Report) (ended : Nat) : Service :=
  match report.result.error, inv.feed.room s.now with
  | none, _ | _, .gone => s.put place inv (.finished report ended)
  | some error, _ =>
    let feed := inv.feed.put s.now (errorMarker error.code error.message)
    s.put place { inv with feed } (.finished report ended)

/-- Ends an invocation, a failed stream with a mark as soon as there is room for it. -/
def finish (place : Nat) (inv : Invocation) (report : Report) : Service :=
  match inv.streams, report.result.error, inv.feed.room s.now with
  | true, some _, .after ticks => s.put place inv (.marking report s.now (s.now + ticks))
  | true, _, _ => s.putMark place inv report s.now
  | false, _, _ => s.put place inv (.finished report s.now)

end Service

namespace Engine

variable (e : Engine) (s : Service) (place : Nat) (inv : Invocation)

/-- Hooks have at least a second after the result is fixed. -/
def hookGrace : Nat := 1000

/-- How long an invocation has been under way. -/
def spent : Span := .ofMilliseconds (s.now - inv.start)

def reportOf : Except RunError Outcome → Report
  | .ok outcome => ⟨success outcome (spent s inv), outcome.toolCalls⟩
  | .error error => ⟨failure error (spent s inv), 0⟩

def timedOutReport : Report := ⟨e.timedOut (spent s inv), 0⟩

/-- The hooks have been told, or have had their time. -/
def complete (report : Report) : Service :=
  let world :=
    if e.recordsEvents then
      { s.world with journal := s.world.journal ++ [(s.now, .event (completed report.result report.toolCalls))] }
    else s.world
  { s with world }.finish place inv report

/-- Goes on telling the hooks. -/
def close (report : Report) (limit : Nat) (rest : RunProcess Unit) : Service :=
  let (stop, scene) := rest.play e.partners (some s.now) ⟨s.world, inv.feed⟩
  let s := { s with world := scene.world }
  match stop with
  | .finished () => e.complete s place inv report
  | .broke message => s.put place inv (.broken message s.now (some report))
  | .paused due rest =>
    if limit ≤ s.now then e.complete s place inv report
    else s.put place inv (.closing report limit (some (s.pendingAt due rest)))
  | .stuck =>
    if limit ≤ s.now then e.complete s place inv report else s.put place inv (.closing report limit none)

/-- The result is fixed. -/
def conclude (report : Report) : Service :=
  e.close s place inv report (max inv.deadline (s.now + hookGrace)) (e.afterComplete inv.command report.result)

/-- Goes on running, and stops at the deadline. -/
def resume (rest : RunProcess (Except RunError Outcome)) : Service :=
  let (stop, scene) := rest.play e.partners (some s.now) ⟨s.world, inv.feed⟩
  let s := { s with world := scene.world }
  let inv := { inv with feed := scene.feed }
  let suspend (pending : Option (Pending (Except RunError Outcome))) : Service :=
    if inv.deadline ≤ s.now then e.conclude s.release place inv (e.timedOutReport s inv)
    else s.put place inv (.running pending)
  match stop with
  | .finished outcome => e.conclude s.release place inv (reportOf s inv outcome)
  | .broke message => s.release.put place inv (.broken message s.now none)
  | .paused due rest => suspend (some (s.pendingAt due rest))
  | .stuck => suspend none

/-- Begins to run, with a permit in hand. -/
def enter : Service := e.resume s place inv (e.run inv.command inv.streams)

/-- Cuts an invocation that is cancelled or beyond its deadline; `leave` gives up what it holds. -/
def cut? (leave : Service → Service) : Option Service :=
  if s.isCancelled inv.token then some (e.conclude (leave s) place inv (reportOf s inv (.error .cancelled)))
  else if inv.deadline ≤ s.now then some (e.conclude (leave s) place inv (e.timedOutReport s inv))
  else none

/-- What an invocation does at this instant, if it can do anything. -/
def poll? : Option Service :=
  let s := s.noteDrop inv
  match inv.stage with
  | .dormant =>
    if s.now < inv.start then none
    else if s.isCancelled inv.token then some (e.conclude s place inv (reportOf s inv (.error .cancelled)))
    else if 0 < s.free then some (e.enter { s with free := s.free - 1 } place inv)
    else if inv.deadline ≤ s.now then some (e.conclude s place inv (e.timedOutReport s inv))
    else some ({ s with queue := s.queue ++ [place] }.put place inv .queued)
  | .queued => e.cut? s place inv (·.leaveQueue place)
  | .granted due _ =>
    if !s.isCancelled inv.token && due ≤ s.now then some (e.enter s place inv) else e.cut? s place inv (·.release)
  | .running none => e.cut? s place inv (·.release)
  | .running (some p) =>
    if !s.isCancelled inv.token && p.due ≤ s.now then some (e.resume s place inv p.rest)
    else e.cut? s place inv (·.release)
  | .closing report limit (some p) =>
    if p.due ≤ s.now then some (e.close s place inv report limit p.rest)
    else if limit ≤ s.now then some (e.complete s place inv report)
    else none
  | .closing report limit none => if limit ≤ s.now then some (e.complete s place inv report) else none
  | .marking report ended due => if due ≤ s.now then some (s.putMark place inv report ended) else none
  | .finished .. | .broken .. => none

/-- The event of a slot. -/
def stepAt? (slot : Slot) : Option Service := do
  let inv ← s.invocations[slot.place]?
  e.poll? (s.atSlot slot) slot.place inv

def step? : Option Service := do e.stepAt? s (← s.next?)

end Engine

end AgentLoop
