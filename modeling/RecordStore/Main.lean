import RecordStore.Command
import Std.Time.DateTime.Timestamp

/-!
# The program

`main` loads what its file argument names, runs the command line on it, and writes back what the run
changed.  While it runs it keeps the file locked against other runs.
-/

set_option autoImplicit false

namespace RecordStore

/-- The text that some UTF-8 bytes spell. -/
def textOf (bytes : Bytes) : String :=
  (String.fromUTF8? ⟨(Utf8.repair bytes).toArray⟩).getD ""

/-- The path of a place. -/
def Place.text (place : Place) : String := "/" ++ "/".intercalate (place.map textOf)

namespace Disk

/-- Adds what really stands at a place. -/
def loadPlace (disk : Disk) (place : Place) : IO Disk := do
  let file := (← IO.currentDir) / Place.text place
  if ← file.isDir then
    pure { disk with tree := disk.tree.put place .folder }
  else if ← file.pathExists then
    let bytes ← IO.FS.readBinFile file
    let info ← file.metadata
    pure (disk.addFile place (.ofBytes bytes.toList info.modified.sec)).1
  else pure disk

/-- Adds everything on the way that a path takes. -/
def loadPath (disk : Disk) (path : Path) : IO Disk :=
  (List.range' 1 path.names.length).foldlM (fun disk count => do
    match disk.tree.follow { path with names := path.names.take count } with
    | .ok place => if (disk.tree.node? place).isNone then disk.loadPlace place else pure disk
    | .error _ => pure disk) disk

/-- Writes the file that a text leads to, if its bytes are not those that were loaded. -/
def save (loaded disk : Disk) (text : Bytes) : IO Unit := do
  match disk.bytesAt? text with
  | none => pure ()
  | some bytes =>
    if loaded.bytesAt? text != some bytes then
      IO.FS.writeBinFile (textOf text) ⟨bytes.toArray⟩

end Disk

/-- The part of the disk that a text leads through. -/
def loadDisk (now : Nat) (text : Bytes) : IO Disk := do
  let home := (Path.ofText (Command.utf8 (← IO.currentDir).toString)).names
  (Disk.empty now now home).loadPath (.ofText text)

/-- Runs an action while the file at `text` is locked, if there is one. -/
def lockingFile {α : Type} (text : String) (act : IO α) : IO α := do
  let file := (← IO.currentDir) / text
  if (← file.pathExists) && !(← file.isDir) then
    let handle ← IO.FS.Handle.mk file .readWrite
    handle.lock
    let result ← act
    handle.unlock
    pure result
  else act

/-- Runs the command line on the disk. -/
def runProgram (args : List String) : IO UInt32 := do
  let args := args.map Command.utf8
  let opts := Command.Options.parse args
  let text := opts.file.getD []
  let input ← if opts.readsInput then (← IO.getStdin).readBinToEnd else pure .empty
  let now ← Std.Time.Timestamp.now
  lockingFile (textOf text) do
    let loaded ← loadDisk now.toSecondsSinceUnixEpoch.val.toNat text
    let (disk, report) := Command.run loaded args input.toList
    Disk.save loaded disk text
    (← IO.getStdout).write ⟨report.out.toArray⟩
    (← IO.getStderr).write ⟨report.err.toArray⟩
    pure (UInt32.ofNat (report.exit.getD 1))

end RecordStore

def main (args : List String) : IO UInt32 := RecordStore.runProgram args
