import AgentLoop.Json.Reader
import AgentLoop.Json.Printer

/-!
# Serialized forms

A `Form` says how values of a type are written as JSON trees and read back.  Records are written as objects with
their fields in order; they are read from objects, whose unknown fields are ignored, or from arrays that list the
fields in order.
-/

namespace AgentLoop

structure Form (α : Type) where
  write : α → Json
  read : Json → Option α

namespace Form

def string : Form String := ⟨.string, Json.string?⟩

def boolean : Form Bool where
  write := .bool
  read
    | .bool b => some b
    | _ => none

/-- A natural number below the limit. -/
def naturalBelow? (limit : Nat) (j : Json) : Option Nat := j.natural?.filter (· < limit)

/-- Words that stand for the natural numbers below the limit. -/
def word {α : Type} (limit : Nat) (toNat : α → Nat) (ofNat : Nat → α) : Form α :=
  ⟨fun n => .number (.integer (toNat n)), fun j => (naturalBelow? limit j).map ofNat⟩

def word32 : Form UInt32 := word UInt32.size UInt32.toNat .ofNat

def word64 : Form UInt64 := word UInt64.size UInt64.toNat .ofNat

/-- A number of single precision; what is not finite is lost. -/
def single : Form Floating where
  write
    | x@(.finite ..) => .number (.single x)
    | _ => .null
  read
    | .number (.integer i) => some (FloatFormat.single.round (i < 0) i.natAbs 1)
    | .number (.double x) | .number (.single x) => some (x.convert .single)
    | _ => none

/-- Any value. -/
def value : Form Json where
  write := id
  read j := if j.isSound then some j.canonical else none

def list {α : Type} (f : Form α) : Form (List α) where
  write items := .array (items.map f.write)
  read
    | .array items => items.mapM f.read
    | _ => none

/-- A value or null. -/
def nullable {α : Type} (f : Form α) : Form (Option α) where
  write
    | some a => f.write a
    | none => .null
  read
    | .null => some none
    | j => (f.read j).map some

/-- A name that stands for one of several things; an object may hold it as the name of an empty field. -/
def named {α : Type} (name : α → String) (ofName? : String → Option α) : Form α where
  write a := .string (name a)
  read
    | .string s => ofName? s
    | .object [(s, .null)] => ofName? s
    | _ => none

end Form

/-! ### Records -/

/-- What is found for a field: its value, nothing in an object, or nothing in an array that is too short. -/
inductive Slotted where
  | given (value : Json)
  | missing
  | beyond
  deriving Repr

/-- The fields of a record as they are found. -/
abbrev Record := List (String × Slotted)

namespace Record

/-- Known fields must not be repeated, and there must not be more items than fields. -/
def of? (names : List String) : Json → Option Record
  | .object fields =>
    if names.all fun name => fields.countP (·.1 == name) ≤ 1 then
      some (names.map fun name => (name, ((fields.lookup name).map .given).getD .missing))
    else none
  | .array items =>
    if items.length ≤ names.length then
      some (names.zip (items.map .given ++ List.replicate (names.length - items.length) .beyond))
    else none
  | _ => none

def slot (r : Record) (name : String) : Slotted := (r.lookup name).getD .missing

variable {α : Type} (r : Record) (name : String) (f : Form α)

/-- A field that has to be there. -/
def required : Option α :=
  match r.slot name with
  | .given v => f.read v
  | _ => none

/-- A field that need not be there, except in an array. -/
def optional : Option (Option α) :=
  match r.slot name with
  | .given v => f.nullable.read v
  | .missing => some none
  | .beyond => none

/-- A field with a value to fall back on. -/
def withDefault (default : α) : Option α :=
  match r.slot name with
  | .given v => f.read v
  | _ => some default

end Record

namespace Json

/-- A field of an object. -/
def entry {α : Type} (name : String) (f : Form α) (value : α) : List (String × Json) := [(name, f.write value)]

/-- A field that is left out if there is no value. -/
def entryIfSome {α : Type} (name : String) (f : Form α) : Option α → List (String × Json)
  | some value => [(name, f.write value)]
  | none => []

/-- A field that is left out if the list is empty. -/
def entryIfAny {α : Type} (name : String) (f : Form α) (values : List α) : List (String × Json) :=
  if values.isEmpty then [] else [(name, f.list.write values)]

end Json

end AgentLoop
