/-!
# The feed of a streamed answer

Deltas pass through a buffer of limited size to a consumer who reads one after the other, with a pause after each,
and may walk away after a number of them.  Since the consumer does nothing else, the time at which each delta is
read is settled when it is put into the buffer.
-/

namespace AgentLoop

/-- How a consumer reads: the pause after each delta, and after how many deltas it walks away. -/
structure Consumer where
  pause : Nat := 0
  take : Option Nat := none
  deriving DecidableEq, Repr

/-- The deltas put into the buffer so far, with the time at which each is read. -/
structure Feed where
  capacity : Option Nat
  consumer : Consumer := {}
  start : Nat := 0
  deltas : List String := []
  readAt : List Nat := []
  deriving DecidableEq, Repr

/-- Whether another delta can be put into the buffer. -/
inductive Room where
  | free
  | after (ticks : Nat)
  | gone
  deriving DecidableEq, Repr

namespace Feed

/-- When the consumer walks away, as far as that is settled. -/
def dropsAt (f : Feed) : Option Nat :=
  match f.consumer.take with
  | none => none
  | some 0 => some f.start
  | some (n + 1) => f.readAt[n]?.map (· + f.consumer.pause)

/-- A full buffer has room again once the consumer reads the delta that was put in `capacity` deltas ago. -/
def room (f : Feed) (now : Nat) : Room :=
  if f.dropsAt.any (· ≤ now) then .gone
  else
    match f.capacity with
    | none => .free
    | some n =>
      if f.readAt.length < n then .free
      else
        match f.readAt[f.readAt.length - n]? with
        | none => .free
        | some t => if t ≤ now then .free else .after (t - now)

/-- When the consumer is ready for another delta. -/
def readyAt (f : Feed) : Nat :=
  match f.readAt.getLast? with
  | none => f.start
  | some t => t + f.consumer.pause

def put (f : Feed) (now : Nat) (delta : String) : Feed :=
  { f with deltas := f.deltas ++ [delta], readAt := f.readAt ++ [max now f.readyAt] }

/-- The deltas that the consumer reads. -/
def taken (f : Feed) : List (String × Nat) :=
  let all := f.deltas.zip f.readAt
  match f.consumer.take with
  | none => all
  | some n => all.take n

end Feed

end AgentLoop
