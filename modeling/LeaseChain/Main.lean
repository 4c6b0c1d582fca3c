import Std.Time.DateTime.Timestamp
import LeaseChain.CommandLine
import LeaseChain.Engine.Opening
import LeaseChain.Node.Running
import LeaseChain.Store.Snapshot

/-!
# The program

Opens a store and runs a node on it without peers, until the process is ended. The store is saved
whenever a block has been accepted.
-/

namespace LeaseChain.Program

/-- The bytes of a file. -/
def load (path : String) : IO Bytes := return (← IO.FS.readBinFile path).toList

/-- What a file holds, or the end of the program with the text of the error. -/
def loadAs {ε α : Type} (path : String) (message : ε → String) (read : Bytes → Except ε α) :
    IO α := do
  match read (← load path) with
  | .ok a => return a
  | .error cause => throw (IO.userError (message cause))

/-- The file of the store in a directory. -/
def storeFile (dir : String) : String := dir ++ "/store"

/-- Saves a store; a file that is there already is replaced as a whole. -/
def save (dir : String) (store : Store) : IO Unit := do
  let file := storeFile dir
  IO.FS.writeBinFile (file ++ ".new") ⟨store.toSnapshot.toArray⟩
  IO.FS.rename (file ++ ".new") file

/-- The store of a directory, which is created if it is not there. -/
def openStore (dir : String) : IO Store := do
  IO.FS.createDirAll dir
  try loadAs (storeFile dir) StorageError.message Store.ofSnapshot
  catch
    | .noFileOrDirectory _ _ _ => return .empty
    | cause => throw cause

/-- The seconds since the epoch. -/
def seconds : IO UInt64 := do
  let now ← Std.Time.Timestamp.now
  return UInt64.ofNat now.toSecondsSinceUnixEpoch.val.toNat

/-- Runs a node for ever; `start` is when it was started, in milliseconds. -/
partial def run (dir : String) (start : Nat) (r : RunningNode) : IO Unit := do
  let clock ← seconds
  let next := { r with node.clock := clock }.advance ((← IO.monoMsNow) - start)
  if next.node.engine.lastAccepted.id ≠ r.node.engine.lastAccepted.id then
    save dir next.node.engine.store
  IO.sleep 5
  run dir start { next with node := next.node.listen.2, sendings := [] }

/-- Opens the node that the options describe, and runs it. -/
def serve (options : Options) : IO Unit := do
  let g : Genesis ← match options.genesis? with
    | some path => loadAs path GenesisError.message Genesis.ofDocument
    | none => pure {}
  let settings : Settings ← match options.settings? with
    | some path => loadAs path SettingsError.message Settings.ofDocument
    | none => pure {}
  let store ← openStore options.dataDir
  match Engine.start g settings store with
  | (.error cause, _) => throw (IO.userError cause.message)
  | (.ok engine, store) =>
    save options.dataDir store
    if options.isTalkative then
      let tip := engine.lastAccepted
      IO.println s!"node opened at height {tip.height}, block {tip.id.toHex}"
      IO.println "node is running, press Ctrl+C to stop"
      (← IO.getStdout).flush
    let mailbox := if options.dev then Mailbox.empty else Mailbox.empty.close
    let node : Node := ⟨engine, ← seconds, mailbox, []⟩
    run options.dataDir (← IO.monoMsNow) (RunningNode.start node .absent options.dev)

end LeaseChain.Program

/-- Runs a node as the words of the command line say. -/
def main (words : List String) : IO UInt32 := do
  if "--help" ∈ words then
    IO.print LeaseChain.Options.usage
    return 0
  match LeaseChain.Options.parse words with
  | .error cause =>
    IO.eprintln s!"error: {cause.message}\n\n{LeaseChain.Options.usage}"
    return 2
  | .ok options =>
    LeaseChain.Program.serve options
    return 0
