/-!
# The command line

The words after the program's name set options of a node. Each option may be left out; of one that
is given more than once, the last counts.
-/

namespace LeaseChain

/-- How a node is to be run. -/
structure Options where
  /-- The directory of the store. -/
  dataDir : String := "leasechain_data"
  /-- The file of the genesis document; default parameters are used without one. -/
  genesis? : Option String := none
  /-- The file of the settings; default settings are used without one. -/
  settings? : Option String := none
  /-- The least weighty messages that are shown. -/
  logLevel : String := "info"
  /-- Whether the node builds and accepts blocks by itself, without a consensus. -/
  dev : Bool := false
deriving DecidableEq

/-- Why words are no command line. -/
inductive UsageError where
  | unexpected (word : String)
  | valueMissing (option : String)
deriving DecidableEq

namespace UsageError

/-- The text shown for the error. -/
def message : UsageError → String
  | unexpected word => s!"unexpected argument '{word}'"
  | valueMissing option => s!"a value is required for '{option}'"

end UsageError

namespace Options

/-- What the command line looks like. -/
def usage : String := "\n".intercalate [
  "Key-value namespace chain node",
  "",
  "Usage: leasechain [OPTIONS]",
  "",
  "Options:",
  "  --data-dir <DIR>     Directory of the store [default: leasechain_data]",
  "  --genesis <FILE>     Genesis document (JSON). Defaults are used when omitted",
  "  --config <FILE>      Node config (JSON)",
  "  --log-level <LEVEL>  Log filter [default: info]",
  "  --dev                Build and accept blocks locally without a consensus engine",
  ""]

/-- The options with one more set to a value, if there is one of the name. -/
def set? (options : Options) (name value : String) : Option Options :=
  match name with
  | "--data-dir" => some { options with dataDir := value }
  | "--genesis" => some { options with genesis? := some value }
  | "--config" => some { options with settings? := some value }
  | "--log-level" => some { options with logLevel := value }
  | _ => none

/-- Reads words from the left. -/
def read (options : Options) : List String → Except UsageError Options
  | [] => .ok options
  | "--dev" :: words => { options with dev := true }.read words
  | [word] =>
    if (options.set? word "").isSome then .error (.valueMissing word)
    else .error (.unexpected word)
  | word :: value :: words =>
    match options.set? word value with
    | some options => options.read words
    | none => .error (.unexpected word)

/-- The options that words set. -/
def parse (words : List String) : Except UsageError Options := Options.read {} words

/-- Whether messages on the course of things are shown. -/
def isTalkative (options : Options) : Bool := options.logLevel ∈ ["info", "debug", "trace"]

end Options

end LeaseChain
