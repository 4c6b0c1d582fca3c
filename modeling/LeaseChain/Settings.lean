import LeaseChain.Json.Parser
import LeaseChain.Json.Printer

/-!
# Settings of a node

What a node decides for itself: how much it keeps, and how often its loops run. Two nodes of one
network may have different settings.
-/

namespace LeaseChain

open Json (Value)

/-- The settings of a node; intervals are in milliseconds. -/
structure Settings where
  /-- The greatest number of pending transactions. -/
  mempoolSize : UInt64 := 1024
  buildInterval : UInt64 := 500
  /-- How long the build loop waits for a block before it gossips all the same. -/
  buildTimeout : UInt64 := 1000
  regossipInterval : UInt64 := 30000
  regossipMaxTxs : UInt64 := 32
  pruneInterval : UInt64 := 60000
  compactInterval : UInt64 := 600000
  /-- The accepted transactions that the list of recent activity keeps. -/
  activityCacheSize : UInt64 := 128
  /-- Whether the transactions of a rejected block become pending again. -/
  readdRejectedTxs : Bool := false
deriving DecidableEq

/-- What is wrong with settings. -/
inductive SettingsError where
  /-- The document cannot be read from its file. -/
  | unreadable (reason : String)
  /-- The document is not the JSON text of settings. -/
  | malformed
  /-- A setting has a value it must not have. -/
  | invalid (reason : String)
deriving DecidableEq

namespace SettingsError

/-- The text shown for the error. -/
def message : SettingsError → String
  | unreadable reason => s!"IO error: {reason}"
  | malformed => "JSON error"
  | invalid reason => s!"Invalid config: {reason}"

end SettingsError

namespace Settings

/-- The settings that must not be zero, with their names, in the order they are checked. -/
def nonZero (s : Settings) : List (String × UInt64) := [
  ("mempool_size", s.mempoolSize),
  ("build_interval_ms", s.buildInterval),
  ("regossip_interval_ms", s.regossipInterval),
  ("prune_interval_ms", s.pruneInterval),
  ("compact_interval_ms", s.compactInterval)]

/-- The first fault of the settings. -/
def validate (s : Settings) : Except SettingsError Unit :=
  match s.nonZero.find? (·.2 == 0) with
  | some (name, _) => .error (.invalid s!"{name} must be non-zero")
  | none => .ok ()

/-- The names of the settings, in the order of a record that is written as an array. -/
def fieldNames : List String := [
  "mempool_size", "build_interval_ms", "build_timeout_ms", "regossip_interval_ms",
  "regossip_max_txs", "prune_interval_ms", "compact_interval_ms", "activity_cache_size",
  "readd_rejected_txs"]

/-- The record of the settings. -/
def toJson (s : Settings) : Value :=
  .object ((fieldNames.map Json.encodeText).zip [
    .ofWord s.mempoolSize, .ofWord s.buildInterval, .ofWord s.buildTimeout,
    .ofWord s.regossipInterval, .ofWord s.regossipMaxTxs, .ofWord s.pruneInterval,
    .ofWord s.compactInterval, .ofWord s.activityCacheSize, .bool s.readdRejectedTxs])

/-- The settings that a record describes; missing fields take their defaults. -/
def ofJson? (value : Value) : Option Settings := do
  let fields ← value.fields? fieldNames
  let word (name : String) (value : UInt64) := Json.withDefault fields name Value.word? value
  let default : Settings := {}
  return {
    mempoolSize := ← word "mempool_size" default.mempoolSize
    buildInterval := ← word "build_interval_ms" default.buildInterval
    buildTimeout := ← word "build_timeout_ms" default.buildTimeout
    regossipInterval := ← word "regossip_interval_ms" default.regossipInterval
    regossipMaxTxs := ← word "regossip_max_txs" default.regossipMaxTxs
    pruneInterval := ← word "prune_interval_ms" default.pruneInterval
    compactInterval := ← word "compact_interval_ms" default.compactInterval
    activityCacheSize := ← word "activity_cache_size" default.activityCacheSize
    readdRejectedTxs := ← Json.withDefault fields "readd_rejected_txs" Value.bool?
      default.readdRejectedTxs }

/-- The document of the settings. -/
def toDocument (s : Settings) : Bytes := s.toJson.pretty

/-- Reads a document, without asking whether a node can run with its settings. -/
def parse (document : Bytes) : Except SettingsError Settings :=
  match (Value.parse? document).bind ofJson? with
  | some s => .ok s
  | none => .error .malformed

/-- Reads a document and validates its settings. -/
def ofDocument (document : Bytes) : Except SettingsError Settings := do
  let s ← parse document
  s.validate
  return s

end Settings

end LeaseChain
