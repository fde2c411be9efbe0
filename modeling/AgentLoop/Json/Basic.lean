import AgentLoop.Number.Decimal

/-!
# JSON trees

A tree keeps the fields of an object in the order in which they were written, repeated names included.  It may hold
flaws, pieces of text that are well-formed and yet stand for no value; a sound tree has none.
`Json.canonical` is the tree as a value: the fields of each object in the order of their names, and of fields with
one name only the last.
-/

namespace AgentLoop

/-- A number is an integer, or a binary number of one of two widths. -/
inductive JsonNumber where
  | integer (value : Int)
  | double (value : Floating)
  | single (value : Floating)
  deriving DecidableEq, Repr

inductive Json where
  | null
  | bool (value : Bool)
  | number (value : JsonNumber)
  | string (value : String)
  | array (items : List Json)
  | object (fields : List (String × Json))
  | flawed
  deriving Repr

/-- Puts an entry into a list in increasing order of names; an entry with its name is replaced. -/
def insertField {α : Type} (name : String) (value : α) : List (String × α) → List (String × α)
  | [] => [(name, value)]
  | (n, v) :: rest =>
    if name < n then (name, value) :: (n, v) :: rest
    else if name = n then (name, value) :: rest
    else (n, v) :: insertField name value rest

/-- The entries in increasing order of names, the last one of each name. -/
def sortFields {α : Type} (fields : List (String × α)) : List (String × α) :=
  fields.foldl (fun sorted entry => insertField entry.1 entry.2 sorted) []

/-- The entry of that name, the last one where a name is repeated. -/
def lastField? {α : Type} (name : String) (fields : List (String × α)) : Option α :=
  (fields.reverse.find? fun entry => entry.1 == name).map (·.2)

namespace Json

mutual

def canonical : Json → Json
  | array items => array (canonicalItems items)
  | object fields => object (sortFields (canonicalFields fields))
  | tree => tree

def canonicalItems : List Json → List Json
  | [] => []
  | item :: rest => canonical item :: canonicalItems rest

def canonicalFields : List (String × Json) → List (String × Json)
  | [] => []
  | (name, value) :: rest => (name, canonical value) :: canonicalFields rest

end

mutual

def isSound : Json → Bool
  | array items => areSound items
  | object fields => areSoundFields fields
  | flawed => false
  | _ => true

def areSound : List Json → Bool
  | [] => true
  | item :: rest => isSound item && areSound rest

def areSoundFields : List (String × Json) → Bool
  | [] => true
  | (_, value) :: rest => isSound value && areSoundFields rest

end

/-- The value of a field of an object. -/
def field? (name : String) : Json → Option Json
  | object fields => lastField? name fields
  | _ => none

def string? : Json → Option String
  | string s => some s
  | _ => none

def natural? : Json → Option Nat
  | number (.integer (.ofNat n)) => some n
  | _ => none

def emptyObject : Json := object []

end Json

/-! ### Look-up in sorted fields -/

theorem lookup_insertField_self {α : Type} (name : String) (value : α) (fields : List (String × α)) :
    (insertField name value fields).lookup name = some value := by
  induction fields with
  | nil => simp [insertField]
  | cons entry rest ih =>
    obtain ⟨n, v⟩ := entry
    unfold insertField
    split
    · simp
    · split
      · simp
      · rename_i _ hne
        rw [List.lookup_cons, show (name == n) = false by simpa using hne]
        exact ih

theorem lookup_insertField_ne {α : Type} {name other : String} (h : other ≠ name) (value : α)
    (fields : List (String × α)) :
    (insertField name value fields).lookup other = fields.lookup other := by
  have hn : (other == name) = false := by simpa using h
  induction fields with
  | nil => simp [insertField, List.lookup_cons, hn]
  | cons entry rest ih =>
    obtain ⟨n, v⟩ := entry
    unfold insertField
    split
    · rw [List.lookup_cons, hn]
    · split
      · rename_i _ heq
        subst heq
        simp only [List.lookup_cons, hn]
      · simp only [List.lookup_cons, ih]

end AgentLoop
