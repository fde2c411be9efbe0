import AgentLoop.Config.Document
import AgentLoop.Text.Blank

/-!
# Loading a configuration

A configuration comes from a file, if there is one, and then from the overrides of the environment.  It is checked
as it is read from the file, and again with the overrides in place.
-/

namespace AgentLoop

/-- What is found where the configuration file is looked for. -/
inductive ConfigFile where
  | missing
  | unreadable (reason : String)
  | text (content : String)
  deriving DecidableEq, Repr

/-- A file with these bytes; it can only be read if they are text. -/
def ConfigFile.ofBytes (bytes : ByteArray) : ConfigFile :=
  match String.fromUTF8? bytes with
  | some content => .text content
  | none => .unreadable "stream did not contain valid UTF-8"

/-- The overrides that are set. -/
structure Overrides where
  model : Option String := none
  maxToolCalls : Option String := none
  timeoutSeconds : Option String := none
  maxConcurrent : Option String := none
  deriving DecidableEq, Repr

inductive ConfigError where
  | unreadable (path reason : String)
  | malformed (path reason : String)
  | outOfRange (fault : ConfigFault)
  | badOverride (key value : String)
  deriving DecidableEq, Repr

namespace ConfigError

/-- The error as that of the file at this path. -/
def inFile (path : String) : ConfigError → ConfigError
  | malformed _ reason => malformed path reason
  | other => other

def message : ConfigError → String
  | unreadable path reason => "Failed to read config file at " ++ path ++ ": " ++ reason
  | malformed path reason => "Failed to parse config file at " ++ path ++ ": " ++ reason
  | outOfRange fault => "Configuration validation failed: " ++ Config.faultMessage fault
  | badOverride key value => "Configuration validation failed: " ++ key ++ " has an invalid value: " ++ value

end ConfigError

/-- A natural number below the limit: decimal digits, perhaps after a plus sign. -/
def readNatural? (limit : Nat) (s : String) : Option Nat :=
  let digits := match s.toList with
    | '+' :: r => r
    | r => r
  if digits.isEmpty || !digits.all isDigit then none
  else if ofDigits digits < limit then some (ofDigits digits) else none

namespace Config

def checked (c : Config) : Except ConfigError Config :=
  match c.fault? with
  | some fault => .error (.outOfRange fault)
  | none => .ok c

/-- The configuration in a text that comes from nowhere in particular; `readerFault` is what the reader of documents
says of a text that it cannot read. -/
def read (readerFault : String → String) (s : String) : Except ConfigError Config :=
  match (Toml.read s).bind ofDocument? with
  | some c => c.checked
  | none => .error (.malformed "<inline>" (readerFault s))

/-- The configuration of a file at this path.  A missing file stands for the defaults. -/
def ofFile (readerFault : String → String) (path : String) : ConfigFile → Except ConfigError Config
  | .missing => .ok {}
  | .unreadable reason => .error (.unreadable path reason)
  | .text content => (read readerFault content).mapError (·.inFile path)

/-- The number that an override sets, blanks around it aside. -/
def override? (limit : Nat) (key : String) : Option String → Except ConfigError (Option Nat)
  | none => .ok none
  | some value =>
    match readNatural? limit (Text.trim value) with
    | some n => .ok (some n)
    | none => .error (.badOverride key value)

/-- The configuration with the overrides in place, not checked. -/
def override (c : Config) (o : Overrides) : Except ConfigError Config := do
  let maxToolCalls ← override? UInt32.size "REAGENT_MAX_TOOL_CALLS" o.maxToolCalls
  let timeoutSeconds ← override? UInt64.size "REAGENT_TIMEOUT_SECS" o.timeoutSeconds
  let maxConcurrent ← override? UInt64.size "REAGENT_MAX_CONCURRENT" o.maxConcurrent
  return { c with
    defaultModel := o.model.getD c.defaultModel
    maxToolCalls := (maxToolCalls.map UInt32.ofNat).getD c.maxToolCalls
    timeoutSeconds := (timeoutSeconds.map UInt64.ofNat).getD c.timeoutSeconds
    maxConcurrent := (maxConcurrent.map UInt64.ofNat).getD c.maxConcurrent }

def load (readerFault : String → String) (path : String) (file : ConfigFile) (o : Overrides) :
    Except ConfigError Config := do
  let c ← ofFile readerFault path file
  let c ← c.override o
  c.checked

/-- The directory of the configuration file in a home directory. -/
def directory (home : Option String) : String :=
  let home := home.getD "/tmp"
  if home.isEmpty then ".reagent"
  else if home.endsWith "/" then home ++ ".reagent"
  else home ++ "/.reagent"

end Config

/-- The variables of the environment that are set to text.  What is not text counts as not set. -/
def Environment := String → Option String

namespace Environment

/-- The path of the configuration file: the one that is named, or that in the home directory. -/
def configPath (env : Environment) : String :=
  (env "REAGENT_CONFIG").getD (Config.directory (env "HOME") ++ "/config.toml")

def overrides (env : Environment) : Overrides where
  model := env "REAGENT_MODEL"
  maxToolCalls := env "REAGENT_MAX_TOOL_CALLS"
  timeoutSeconds := env "REAGENT_TIMEOUT_SECS"
  maxConcurrent := env "REAGENT_MAX_CONCURRENT"

/-- The configuration of an environment, with what is found at each path. -/
def load (env : Environment) (readerFault : String → String) (files : String → ConfigFile) :
    Except ConfigError Config :=
  Config.load readerFault env.configPath (files env.configPath) env.overrides

end Environment

end AgentLoop
