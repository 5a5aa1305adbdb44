import RecordStore.FileTree
import RecordStore.Store
import RecordStore.Trim

/-!
# Stores on a disk

Stores are opened by path.  A disk has a tree of names and all files that were ever named in it: a
handle keeps the file it opened even after a trim has put another one in its place.

* `Disk.openStore`, `Disk.call`, `Disk.resume`, `Disk.close` — the life of a handle.
* `Disk.trim` — replaces a store by its trimmed and sorted copy.
* `Disk.create`, `Disk.appendBytes`, `Disk.patchBytes`, `Disk.setMtime`, `Disk.makeFolder` — what
  others do to the files behind the library's back.
-/

set_option autoImplicit false

namespace RecordStore

/-- A handle: the file it has open, and the client it is there. -/
structure HandleRef where
  file : Nat
  client : HolderId
  deriving DecidableEq, Repr

structure Disk where
  /-- The current second. -/
  now : Nat
  /-- The number of the running process, which names its temporary copies. -/
  process : Nat
  tree : FileTree
  /-- All files, those no longer named included. -/
  files : List Store
  /-- The number of the next client. -/
  nextClient : HolderId
  deriving DecidableEq, Repr

namespace Disk

/-- A disk with nothing but the working folder and those above it. -/
def empty (now process : Nat) (home : Place) : Disk := ⟨now, process, ⟨[], home⟩, [], 0⟩

def setFile (disk : Disk) (index : Nat) (store : Store) : Disk :=
  { disk with files := disk.files.set index store }

/-- Puts a new file at a place. -/
def addFile (disk : Disk) (place : Place) (store : Store) : Disk × Nat :=
  let index := disk.files.length
  ({ disk with files := disk.files ++ [store], tree := disk.tree.put place (.file index) }, index)

/-- The file that a text leads to. -/
def fileAt? (disk : Disk) (text : Bytes) : Option Store :=
  match disk.tree.find text with
  | .ok (_, index) => disk.files[index]?
  | .error _ => none

/-- The bytes of the file that a text leads to. -/
def bytesAt? (disk : Disk) (text : Bytes) : Option Bytes :=
  (disk.fileAt? text).map fun store => store.file.bytes

/-- The names in the working folder, in order. -/
def names (disk : Disk) : List Bytes := disk.tree.names.mergeSort fun a b => (compareKeys a b).isLE

/-! ## Handles -/

/-- Opens a file for a new client. -/
def openIndex (disk : Disk) (index : Nat) (config : Config) : Disk × Outcome × HandleRef :=
  let id := disk.nextClient
  let disk := { disk with nextClient := id + 1 }
  match disk.files[index]? with
  | some store =>
    let (store, outcome) := store.openFor disk.now id config
    (disk.setFile index store, outcome, ⟨index, id⟩)
  | none => (disk, .unavailable, ⟨index, id⟩)

/-- The file that an opening gets, created if that is asked for. -/
def fileFor (disk : Disk) (config : Config) : Except SystemFault (Disk × Nat) := do
  if config.create then
    match ← disk.tree.findOrVacant config.path with
    | (_, some index) => pure (disk, index)
    | (place, none) => pure (disk.addFile place (.ofBytes [] disk.now))
  else
    let (_, index) ← disk.tree.find config.path
    pure (disk, index)

/-- Opens the store at the configured path. -/
def openStore (disk : Disk) (config : Config) : Disk × Outcome × HandleRef :=
  match disk.fileFor config with
  | .ok (disk, index) => disk.openIndex index config
  | .error fault => (disk, .failed (.io fault), ⟨0, 0⟩)

/-- Runs one step on the file of a handle. -/
def stepFile (disk : Disk) (ref : HandleRef) (step : Store → Store × Outcome) : Disk × Outcome :=
  match disk.files[ref.file]? with
  | some store =>
    let (store, outcome) := step store
    (disk.setFile ref.file store, outcome)
  | none => (disk, .unavailable)

def call (disk : Disk) (ref : HandleRef) (call : Call) : Disk × Outcome :=
  disk.stepFile ref fun store => store.call disk.now ref.client call

def resume (disk : Disk) (ref : HandleRef) : Disk × Outcome :=
  disk.stepFile ref fun store => store.resume disk.now ref.client

def close (disk : Disk) (ref : HandleRef) : Disk :=
  (disk.stepFile ref fun store => (store.close disk.now ref.client, .answered .done)).1

def config? (disk : Disk) (ref : HandleRef) : Option Config :=
  disk.files[ref.file]?.bind fun store => store.config? ref.client

/-! ## Trimming -/

/-- What a trim came to.  `waiting` cannot arise while the copy is known to nobody else. -/
inductive TrimOutcome where
  | trimmed (stats : TrimStats)
  | failed (error : Error)
  | waiting
  deriving DecidableEq, Repr

/-- Where a trim writes its copy, beside the store itself. -/
def copyPath (disk : Disk) (text : Bytes) : Bytes :=
  text ++ ascii (".tmp" ++ toString disk.process).toList

/-- Opens, sorts and closes a store. -/
def resortAt (disk : Disk) (config : Config) : Disk × Outcome :=
  match disk.openStore config with
  | (disk, .opened, ref) =>
    match disk.call ref .resort with
    | (disk, .answered _) => (disk.close ref, .answered .done)
    | (disk, .failed error) => (disk.close ref, .failed error)
    | (disk, outcome) => (disk, outcome)
  | (disk, outcome, _) => (disk, outcome)

/-- Puts a copy in the place of a store and sorts it. -/
def replaceBy (disk : Disk) (text : Bytes) (place : Place) (copy : Bytes) (stats : TrimStats) :
    Disk × TrimOutcome :=
  let (disk, _) := disk.addFile place (.ofBytes copy disk.now)
  match disk.resortAt { Config.ofPath text with create := false } with
  | (disk, .answered _) => (disk, .trimmed stats)
  | (disk, .failed error) => (disk, .failed error)
  | (disk, _) => (disk, .waiting)

/-- Whether any handle keeps the presence lock of a file. -/
def isInUse (disk : Disk) (store : Store) : Bool :=
  (store.file.acquire? disk.nextClient presenceOffset .exclusive).isNone

/-- Trims the file that stands at a place.  Whatever comes of it, no copy stays behind. -/
def trimFile (disk : Disk) (text : Bytes) (place : Place) (store : Store) : Disk × TrimOutcome :=
  if disk.isInUse store then (disk, .failed (.contention presenceOffset))
  else
    match disk.tree.findOrVacant (disk.copyPath text) with
    | .error fault => (disk, .failed (.io fault))
    | .ok (copyPlace, _) =>
      let disk := { disk with tree := disk.tree.remove copyPlace }
      match trimBytes? store.file.bytes with
      | none => (disk, .failed .invalidHeader)
      | some (copy, stats) => disk.replaceBy text place copy stats

/-- Replaces the store at a path by its trimmed copy and sorts that.  Fails while any handle keeps
the store's presence lock. -/
def trim (disk : Disk) (text : Bytes) : Disk × TrimOutcome :=
  match disk.tree.find text with
  | .error fault => (disk, .failed (.io fault))
  | .ok (place, index) =>
    match disk.files[index]? with
    | none => (disk, .failed (.io .noSuchFile))
    | some store => disk.trimFile text place store

/-! ## Changes from outside -/

/-- Changes the file at an index. -/
def editIndex (disk : Disk) (index : Nat) (edit : SharedFile → SharedFile) : Disk :=
  match disk.files[index]? with
  | some store => disk.setFile index { store with file := edit store.file }
  | none => disk

/-- Changes the file that a text leads to. -/
def editFile (disk : Disk) (text : Bytes) (edit : SharedFile → SharedFile) :
    Except SystemFault Disk := do
  let (_, index) ← disk.tree.find text
  pure (disk.editIndex index edit)

/-- Gives the file that a text leads to these bytes, creating it if it is not there. -/
def create (disk : Disk) (text bytes : Bytes) (mtime : Int) : Except SystemFault Disk := do
  match ← disk.tree.findOrVacant text with
  | (_, some index) => pure (disk.editIndex index fun file => { file with bytes, mtime })
  | (place, none) => pure (disk.addFile place (.ofBytes bytes mtime)).1

def patchBytes (disk : Disk) (text : Bytes) (patch : Patch) : Except SystemFault Disk :=
  disk.editFile text fun file => file.patch disk.now patch

def appendBytes (disk : Disk) (text bytes : Bytes) : Except SystemFault Disk :=
  disk.editFile text fun file => file.patch disk.now ⟨file.bytes.length, bytes⟩

def setMtime (disk : Disk) (text : Bytes) (mtime : Int) : Except SystemFault Disk :=
  disk.editFile text fun file => { file with mtime }

def makeFolder (disk : Disk) (text : Bytes) : Except SystemFault Disk := do
  pure { disk with tree := ← disk.tree.makeFolder text }

end Disk

end RecordStore
