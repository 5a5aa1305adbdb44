import RecordStore.Error

/-!
# The file tree

A store is opened by a path.  The path is followed name by name, from the root or from the working
folder, and each step needs a folder to step from; this decides which of several faults is met.

* `Path.check` — a text as a path.
* `FileTree.step`, `FileTree.follow` — one name further, and the place that a path leads to.
* `FileTree.find`, `FileTree.findOrVacant` — the file to be opened, without and with leave to create
  it.
* `FileTree.makeFolder` — a new folder.
-/

set_option autoImplicit false

namespace RecordStore

/-! ## Paths -/

/-- A path as it is written. -/
structure Path where
  /-- Whether it starts at the root. -/
  rooted : Bool
  names : List Bytes
  /-- Whether a slash ends it, so that it can only mean a folder. -/
  closed : Bool
  deriving DecidableEq, Repr

namespace Path

def slash : UInt8 := '/'.toUInt8

/-- The name of a folder in itself. -/
def here : Bytes := ascii ['.']

/-- The name of the folder above. -/
def above : Bytes := ascii ['.', '.']

/-- The greatest length of a path. -/
def maxLength : Nat := 4095

/-- The greatest length of a name. -/
def maxNameLength : Nat := 255

/-- Reads a path; slashes in a row count as one. -/
def ofText (text : Bytes) : Path where
  rooted := text.head? == some slash
  names := (pieces (· == slash) text).filter (· != [])
  closed := text.getLast? == some slash

/-- Reads a path, unless it is refused before any folder is looked at. -/
def check (text : Bytes) : Except SystemFault Path :=
  if text = [] then .error .noSuchFile
  else if 0 ∈ text then .error .zeroByte
  else if maxLength < text.length then .error .nameTooLong
  else .ok (ofText text)

/-- The path to the folder in which a path ends. -/
def parent (path : Path) : Path := { path with names := path.names.dropLast }

end Path

example :
    Path.ofText (ascii ['/', 'a', '/', '/', 'b', '/'])
      = ⟨true, [ascii ['a'], ascii ['b']], true⟩ := by
  decide

/-! ## Places -/

/-- The names on the way from the root. -/
abbrev Place := List Bytes

inductive Node where
  | folder
  | file (index : Nat)
  deriving DecidableEq, Repr

/-- What stands at which place.  The working folder and those above it are always there. -/
structure FileTree where
  entries : List (Place × Node)
  /-- The working folder. -/
  home : Place
  deriving DecidableEq, Repr

namespace FileTree

def node? (tree : FileTree) (place : Place) : Option Node :=
  if place.isPrefixOf tree.home then some .folder else tree.entries.lookup place

def remove (tree : FileTree) (place : Place) : FileTree :=
  { tree with entries := tree.entries.filter fun entry => entry.1 != place }

def put (tree : FileTree) (place : Place) (node : Node) : FileTree :=
  { tree with entries := (place, node) :: (tree.remove place).entries }

/-- Fails unless a place is a folder. -/
def enter (tree : FileTree) (place : Place) : Except SystemFault Unit :=
  match tree.node? place with
  | some .folder => .ok ()
  | some (.file _) => .error .notADirectory
  | none => .error .noSuchFile

/-- One name further from a folder.  Nothing needs to stand at the new place. -/
def step (tree : FileTree) (place : Place) (name : Bytes) : Except SystemFault Place := do
  tree.enter place
  if name = Path.here then pure place
  else if name = Path.above then pure place.dropLast
  else if Path.maxNameLength < name.length then throw .nameTooLong
  else pure (place ++ [name])

/-- The place that a path leads to. -/
def follow (tree : FileTree) (path : Path) : Except SystemFault Place :=
  path.names.foldlM tree.step (if path.rooted then [] else tree.home)

/-- The file that is opened where a text leads, with its place. -/
def find (tree : FileTree) (text : Bytes) : Except SystemFault (Place × Nat) := do
  let path ← Path.check text
  let place ← tree.follow path
  match tree.node? place with
  | none => throw .noSuchFile
  | some .folder => throw .isADirectory
  | some (.file index) => if path.closed then throw .notADirectory else pure (place, index)

/-- The file that is opened or created where a text leads, with its place.  A path that a slash ends
creates nothing. -/
def findOrVacant (tree : FileTree) (text : Bytes) : Except SystemFault (Place × Option Nat) := do
  let path ← Path.check text
  if path.closed then
    tree.enter (← tree.follow path.parent)
    throw .isADirectory
  else
    let place ← tree.follow path
    match tree.node? place with
    | none => pure (place, none)
    | some .folder => throw .isADirectory
    | some (.file index) => pure (place, some index)

/-- Makes a folder where a text leads. -/
def makeFolder (tree : FileTree) (text : Bytes) : Except SystemFault FileTree := do
  let place ← tree.follow (← Path.check text)
  match tree.node? place with
  | none => pure (tree.put place .folder)
  | some _ => throw .fileExists

/-- The names in the working folder. -/
def names (tree : FileTree) : List Bytes :=
  tree.entries.filterMap fun entry =>
    if entry.1.dropLast = tree.home then entry.1.getLast? else none

end FileTree

end RecordStore
