import RecordStore.Disk
import RecordStore.Utf8

/-!
# The command line

`dkp [-d] [-s] [-r] [-w] [-x] [-t] file [key [field=value]]` trims, sorts, reads, writes and
deletes.  With a key it runs one command; without one it runs the commands on its input, one a
line, and skips those that are refused without harm to the handle.

* `Options.parse` — what the arguments ask for.
* `Request.ofInput` — the commands on an input.
* `Program.execute` — one command on an open store.
* `run` — the whole program on a disk: exit code, output and error output.
-/

set_option autoImplicit false

namespace RecordStore.Command

/-- The bytes of a text in UTF-8. -/
def utf8 (text : String) : Bytes := text.toUTF8.toList

def usage : Bytes := utf8 "dkp [-d] [-s] [-r] [-w] [-x] [-t] file [key [field=value]]\n"

structure Options where
  read : Bool
  write : Bool
  delete : Bool
  sort : Bool
  trim : Bool
  file : Option Bytes
  key : Option Bytes
  assign : Option Bytes
  deriving DecidableEq, Repr

namespace Options

def none : Options := ⟨false, false, false, false, false, .none, .none, .none⟩

/-- The letter of a flag sets options; `-w` reads too.  Other letters, and further letters, have no
effect on the store. -/
def flag (opts : Options) (letter : Option UInt8) : Options :=
  if letter = some 'r'.toUInt8 then { opts with read := true }
  else if letter = some 'w'.toUInt8 then { opts with read := true, write := true }
  else if letter = some 'x'.toUInt8 then { opts with delete := true }
  else if letter = some 's'.toUInt8 then { opts with sort := true }
  else if letter = some 't'.toUInt8 then { opts with trim := true }
  else opts

/-- Arguments that are no flags are the file, the key and the assignment, in this order; further
ones are ignored. -/
def operand (opts : Options) (text : Bytes) : Options :=
  if opts.file.isNone then { opts with file := some text }
  else if opts.key.isNone then { opts with key := some text }
  else if opts.assign.isNone then { opts with assign := some text }
  else opts

def argument (opts : Options) (text : Bytes) : Options :=
  if text.head? = some '-'.toUInt8 then opts.flag text[1]? else opts.operand text

def parse (args : List Bytes) : Options := args.foldl argument none

/-- Whether the commands are those on the input. -/
def readsInput (opts : Options) : Bool :=
  opts.file.isSome && opts.key.isNone && (opts.read || opts.write || opts.delete)

end Options

/-- A key, and possibly a token that assigns a value to a field. -/
structure Request where
  key : Bytes
  assign : Option Bytes
  deriving DecidableEq, Repr

/-- The words of an input line, cut at spaces and tabs. -/
def words (line : Bytes) : List Bytes :=
  (pieces (fun b => b == space || b == tab) line).filter (· != [])

/-- The request on an input line, unless the line is blank. -/
def Request.ofLine? (line : Bytes) : Option Request :=
  match words (if endsLine line then line.dropLast else line) with
  | [] => none
  | key :: more => some ⟨key, more.head?⟩

/-- The requests on an input. -/
def Request.ofInput (input : Bytes) : List Request := (lines input).filterMap Request.ofLine?

/-- Why the program stops early. -/
inductive Halt where
  | failed (error : Error)
  /-- Another program holds a lock that is waited for. -/
  | waiting
  deriving DecidableEq, Repr

/-- The state of the running program. -/
structure State where
  disk : Disk
  out : Bytes
  deriving DecidableEq, Repr

abbrev Program := EStateM Halt State

namespace Program

def print (text : Bytes) : Program Unit := modify fun s => { s with out := s.out ++ text }

/-- Runs a call on a handle. -/
def call (ref : HandleRef) (call : Call) : Program Answer := do
  let s ← get
  let (disk, outcome) := s.disk.call ref call
  set { s with disk }
  match outcome with
  | .answered a => pure a
  | .failed error => throw (.failed error)
  | .opened | .waiting | .unavailable => throw .waiting

/-- Trims the store and reports what that did. -/
def trim (path : Bytes) : Program Unit := do
  let s ← get
  let (disk, outcome) := s.disk.trim path
  set { s with disk }
  match outcome with
  | .trimmed stats =>
    print (utf8 "trimmed " ++ Utf8.repair path ++ utf8 (": kept " ++ toString stats.kept
      ++ " dropped " ++ toString stats.dropped ++ " (" ++ toString stats.bytesBefore
      ++ " -> " ++ toString stats.bytesAfter ++ " bytes)\n"))
  | .failed error => throw (.failed error)
  | .waiting => throw .waiting

def openStore (config : Config) : Program HandleRef := do
  let s ← get
  let (disk, outcome, ref) := s.disk.openStore config
  set { s with disk }
  match outcome with
  | .opened => pure ref
  | .failed error => throw (.failed error)
  | .answered _ | .waiting | .unavailable => throw .waiting

/-- Prints what a lookup found. -/
def report (key : Bytes) (batch : Bool) (found : Option Record) : Program Unit :=
  match found with
  | some record =>
    print (utf8 "key " ++ Utf8.repair key ++ utf8 (" data (" ++ toString record.text.length ++ ") ")
      ++ record.text)
  | none =>
    if batch then print (utf8 "key " ++ Utf8.repair key ++ utf8 " data <not-found>\n")
    else print (utf8 "<not found>\n")

/-- Runs one request: deleting comes before writing, and writing before reading. -/
def execute (opts : Options) (ref : HandleRef) (batch : Bool) (request : Request) :
    Program Unit := do
  if opts.delete then
    let _ ← call ref (.delete request.key)
  else
    match (if opts.write then request.assign.bind Field.ofToken? else none) with
    | some field =>
      let _ ← call ref (.write ⟨request.key, some field, .transient⟩)
    | none =>
      if opts.read then
        match ← call ref (.read request.key .record false) with
        | .record found => report request.key batch found
        | _ => pure ()

/-- Runs one request of many: a refusal that leaves the handle usable is passed over. -/
def executeOne (opts : Options) (ref : HandleRef) (request : Request) : Program Unit := fun s =>
  match execute opts ref true request s with
  | .error (.failed error) s => if error.isFatal then .error (.failed error) s else .ok () s
  | result => result

/-- What is done while the store is open. -/
def body (opts : Options) (input : Bytes) (ref : HandleRef) : Program Unit := do
  if opts.sort then
    let _ ← call ref .resort
  match opts.key with
  | some key => execute opts ref false ⟨key, opts.assign⟩
  | none => if opts.readsInput then (Request.ofInput input).forM (executeOne opts ref)

/-- Closes a handle, however the program ends. -/
def closing (ref : HandleRef) (program : Program Unit) : Program Unit := fun s =>
  let close (s : State) : State := { s with disk := s.disk.close ref }
  match program s with
  | .ok () s => .ok () (close s)
  | .error halt s => .error halt (close s)

def main (opts : Options) (path input : Bytes) : Program Unit := do
  if opts.trim then trim path
  let ref ← openStore { Config.ofPath path with create := opts.write }
  closing ref (body opts input ref)

end Program

/-- What the program leaves behind besides the disk. -/
structure Report where
  /-- The exit code, unless the program still waits for a lock. -/
  exit : Option Nat
  out : Bytes
  err : Bytes
  deriving DecidableEq, Repr

/-- Runs the program. -/
def run (disk : Disk) (args : List Bytes) (input : Bytes) : Disk × Report :=
  let opts := Options.parse args
  match opts.file with
  | none => (disk, ⟨some 0, usage, []⟩)
  | some path =>
    match Program.main opts path input ⟨disk, []⟩ with
    | .ok () s => (s.disk, ⟨some 0, s.out, []⟩)
    | .error (.failed error) s =>
      (s.disk, ⟨some 1, s.out,
        utf8 "dkp: " ++ Utf8.repair path ++ utf8 (": " ++ error.message ++ "\n")⟩)
    | .error .waiting s => (s.disk, ⟨none, s.out, []⟩)

end RecordStore.Command
