import AgentLoop.Json.Token

/-!
# Reading JSON

A reader that goes through the tokens once with a stack of the arrays and objects that are still open.  What is
open while 127 others are is a flaw, and so is an object with a name that is one.
-/

namespace AgentLoop.Json

/-- An array or object that is still open, with what it holds so far, last first. -/
inductive Frame where
  | items (done : List Json)
  | fields (done : List (String × Json)) (name : String)
  /-- An object with a flawed name. -/
  | spoiled

/-- What may come next. -/
inductive Expectation where
  | value
  | itemOrClose
  | nameOrClose
  | name
  | colon
  | separator
  | nothing (result : Json)

structure Reading where
  stack : List Frame
  expects : Expectation

namespace Reading

def maxOpen : Nat := 127

/-- Puts a finished value where it belongs. -/
def deliver (v : Json) : List Frame → Reading
  | [] => ⟨[], .nothing v⟩
  | .items done :: outer => ⟨.items (v :: done) :: outer, .separator⟩
  | .fields done name :: outer => ⟨.fields ((name, v) :: done) "" :: outer, .separator⟩
  | .spoiled :: outer => ⟨.spoiled :: outer, .separator⟩

/-- Puts a closed array or object where it belongs. -/
def deliverClosed (v : Json) (outer : List Frame) : Reading :=
  deliver (if outer.length < maxOpen then v else .flawed) outer

/-- The beginning of a value. -/
def beginValue (stack : List Frame) : Token → Option Reading
  | .null => some (deliver .null stack)
  | .bool b => some (deliver (.bool b) stack)
  | .number n => some (deliver ((n.map .number).getD .flawed) stack)
  | .string s => some (deliver ((s.map .string).getD .flawed) stack)
  | .openArray => some ⟨.items [] :: stack, .itemOrClose⟩
  | .openObject => some ⟨.fields [] "" :: stack, .nameOrClose⟩
  | _ => none

/-- The name of a field of the innermost object. -/
def beginField (name : Option String) : List Frame → Option Reading
  | .fields done _ :: outer =>
    match name with
    | some name => some ⟨.fields done name :: outer, .colon⟩
    | none => some ⟨.spoiled :: outer, .colon⟩
  | .spoiled :: outer => some ⟨.spoiled :: outer, .colon⟩
  | _ => none

def closeArray : List Frame → Option Reading
  | .items done :: outer => some (deliverClosed (.array done.reverse) outer)
  | _ => none

def closeObject : List Frame → Option Reading
  | .fields done _ :: outer => some (deliverClosed (.object done.reverse) outer)
  | .spoiled :: outer => some (deliverClosed .flawed outer)
  | _ => none

/-- What comes after a comma. -/
def goOn (stack : List Frame) : Option Reading :=
  match stack with
  | .items _ :: _ => some ⟨stack, .value⟩
  | .fields .. :: _ | .spoiled :: _ => some ⟨stack, .name⟩
  | [] => none

def step (r : Reading) (token : Token) : Option Reading :=
  match r.expects, token with
  | .value, t => beginValue r.stack t
  | .itemOrClose, .closeArray => closeArray r.stack
  | .itemOrClose, t => beginValue r.stack t
  | .nameOrClose, .closeObject => closeObject r.stack
  | .nameOrClose, .string s => beginField s r.stack
  | .name, .string s => beginField s r.stack
  | .colon, .colon => some ⟨r.stack, .value⟩
  | .separator, .comma => goOn r.stack
  | .separator, .closeArray => closeArray r.stack
  | .separator, .closeObject => closeObject r.stack
  | _, _ => none

def result? (r : Reading) : Option Json :=
  match r.expects with
  | .nothing v => some v
  | _ => none

end Reading

/-- The tree that a text spells, if it is well-formed. -/
def parse (s : String) : Option Json := do
  let final ← (← tokens s.toList).foldlM Reading.step ⟨[], .value⟩
  final.result?

/-- The tree that a text spells, if it is well-formed and sound. -/
def read (s : String) : Option Json := (parse s).filter isSound

end AgentLoop.Json
