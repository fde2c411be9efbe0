import AgentLoop.Number.Decimal

/-!
# TOML documents

A document is a tree of tables.  How a table came about decides what may still be added to it: a header opens a table
once; a longer header or a dotted key implies the tables on its way, and those may still be completed; a table
written in braces is closed.
-/

namespace AgentLoop

/-- How a table came about. -/
inductive TableOrigin where
  | header
  | implied
  | dotted
  | inline
  deriving DecidableEq, Repr

inductive Toml where
  | string (value : String)
  | integer (value : Int)
  | float (value : Floating)
  | boolean (value : Bool)
  | moment
  | array (items : List Toml)
  | tableArray (tables : List Toml)
  | table (origin : TableOrigin) (fields : List (String × Toml))
  deriving Repr

namespace Toml

abbrev Fields := List (String × Toml)

/-- Puts an entry in the place of the one with its name, or at the end. -/
def putField (name : String) (value : Toml) : Fields → Fields
  | [] => [(name, value)]
  | (n, v) :: rest => if n = name then (name, value) :: rest else (n, v) :: putField name value rest

/-- What may be done to a table: nothing, or its origin and fields change. -/
abbrev TableChange := TableOrigin → Fields → Option (TableOrigin × Fields)

/-- Changes the table at a path, which begins at the given table; missing tables on the way are created.  A dotted
key may pass only tables that are not opened by a header; of an array of tables the last one is meant. -/
def changeAt (byKey : Bool) : List String → TableChange → TableChange
  | [], change, origin, fields => change origin fields
  | name :: path, change, origin, fields => do
    match fields.lookup name with
    | none =>
      let (o, fs) ← changeAt byKey path change (if byKey then .dotted else .implied) []
      return (origin, fields ++ [(name, .table o fs)])
    | some (.table o fs) =>
      if o = .inline ∨ (byKey ∧ o = .header) then none
      else
        let (o, fs) ← changeAt byKey path change o fs
        return (origin, putField name (.table o fs) fields)
    | some (.tableArray tables) =>
      match tables.getLast? with
      | some (.table o fs) =>
        let (o, fs) ← changeAt byKey path change o fs
        return (origin, putField name (.tableArray (tables.dropLast ++ [.table o fs])) fields)
      | _ => none
    | some _ => none

/-- Adds a new entry under a dotted key.  The last table on the way must have come about by a dotted key if there is
a way at all, and must not if there is none. -/
def addKey (path : List String) (name : String) (value : Toml) : TableChange :=
  changeAt true path fun origin fields =>
    if (origin == .dotted) == path.isEmpty then none
    else if (fields.lookup name).isSome then none
    else some (origin, fields ++ [(name, value)])

/-- Opens the table of a header. -/
def openTable (path : List String) (name : String) : TableChange :=
  changeAt false path fun origin fields =>
    match fields.lookup name with
    | none => some (origin, fields ++ [(name, .table .header [])])
    | some (.table .implied inner) => some (origin, putField name (.table .header inner) fields)
    | some _ => none

/-- Opens another table of an array of tables. -/
def openArrayTable (path : List String) (name : String) : TableChange :=
  changeAt false path fun origin fields =>
    match fields.lookup name with
    | none => some (origin, fields ++ [(name, .tableArray [.table .header []])])
    | some (.tableArray tables) =>
      some (origin, putField name (.tableArray (tables ++ [.table .header []])) fields)
    | some _ => none

/-- A line of a document. -/
inductive Line where
  | entry (path : List String) (name : String) (value : Toml)
  | header (path : List String) (name : String)
  | arrayHeader (path : List String) (name : String)

/-- A document under construction: where entries go, and the fields of the root. -/
structure Assembly where
  place : List String := []
  root : Fields := []

namespace Assembly

def apply (a : Assembly) (change : TableChange) : Option Fields := (change .header a.root).map (·.2)

def add (a : Assembly) : Line → Option Assembly
  | .entry path name value =>
    (a.apply (changeAt false a.place (addKey path name value))).map fun root => { a with root }
  | .header path name => (a.apply (openTable path name)).map fun root => ⟨path ++ [name], root⟩
  | .arrayHeader path name => (a.apply (openArrayTable path name)).map fun root => ⟨path ++ [name], root⟩

end Assembly

/-- The root table of the document that consists of these lines. -/
def ofLines (lines : List Line) : Option Fields := (lines.foldlM Assembly.add {}).map (·.root)

/-- The fields of a table in braces. -/
def inlineFields (entries : List (List String × String × Toml)) : Option Fields :=
  (entries.foldlM (fun fields (path, name, value) => (addKey path name value .inline fields).map (·.2)) [])

end Toml

end AgentLoop
