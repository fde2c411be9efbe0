/-!
# The event bus

Every subscriber sees every event published after it subscribed, in order, as long as it keeps up: the bus keeps a
fixed number of events.  A subscriber that was overtaken is told how many events it missed and goes on with the
oldest one kept.
-/

namespace AgentLoop

/-- The least power of two that is not less than `n`. -/
def powerOfTwoAbove (n : Nat) : Nat := if n ≤ 1 then 1 else 1 <<< ((n - 1).log2 + 1)

/-- All events published so far, and for each subscriber the number of the next event it will see. -/
structure EventBus (ε : Type) where
  capacity : Nat
  published : List ε := []
  cursors : List Nat := []

namespace EventBus

variable {ε : Type}

def defaultCapacity : Nat := 256

/-- A bus must be able to hold an event; it holds a power of two of them. -/
def create (capacity : Nat) : Option (EventBus ε) :=
  if capacity = 0 then none else some { capacity := powerOfTwoAbove capacity }

def publish (bus : EventBus ε) (e : ε) : EventBus ε := { bus with published := bus.published ++ [e] }

/-- Adds a subscriber and returns its number. -/
def subscribe (bus : EventBus ε) : Nat × EventBus ε :=
  (bus.cursors.length, { bus with cursors := bus.cursors ++ [bus.published.length] })

inductive Received (ε : Type) where
  | event (e : ε)
  | lagged (missed : Nat)
  | empty
  deriving DecidableEq, Repr

/-- The number of the oldest event that the bus still keeps. -/
def oldest (bus : EventBus ε) : Nat := bus.published.length - bus.capacity

def receive (bus : EventBus ε) (subscriber : Nat) : Option (Received ε × EventBus ε) := do
  let next ← bus.cursors[subscriber]?
  if next < bus.oldest then
    return (.lagged (bus.oldest - next), { bus with cursors := bus.cursors.set subscriber bus.oldest })
  match bus.published[next]? with
  | some e => return (.event e, { bus with cursors := bus.cursors.set subscriber (next + 1) })
  | none => return (.empty, bus)

end EventBus

end AgentLoop
