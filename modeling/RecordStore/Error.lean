import RecordStore.Token

/-!
# Errors

Every refusal of the store is one of these causes; `Error.message` gives its wording and
`Error.isFatal` tells after which ones a handle should not be trusted any further.
-/

set_option autoImplicit false

namespace RecordStore

/-- Refusals by the file system and by its byte locks. -/
inductive SystemFault where
  | noSuchFile
  | fileExists
  | notADirectory
  | isADirectory
  | invalidArgument
  | nameTooLong
  | valueTooLarge
  /-- A path with a zero byte, which is never handed on to the file system. -/
  | zeroByte
  deriving DecidableEq, Repr

/-- The number that the file system has for a fault. -/
def SystemFault.code? : SystemFault → Option Nat
  | .noSuchFile => some 2
  | .fileExists => some 17
  | .notADirectory => some 20
  | .isADirectory => some 21
  | .invalidArgument => some 22
  | .nameTooLong => some 36
  | .valueTooLarge => some 75
  | .zeroByte => none

def SystemFault.text : SystemFault → String
  | .noSuchFile => "No such file or directory"
  | .fileExists => "File exists"
  | .notADirectory => "Not a directory"
  | .isADirectory => "Is a directory"
  | .invalidArgument => "Invalid argument"
  | .nameTooLong => "File name too long"
  | .valueTooLarge => "Value too large for defined data type"
  | .zeroByte => "file name contained an unexpected NUL byte"

def SystemFault.message (fault : SystemFault) : String :=
  match fault.code? with
  | some code => fault.text ++ " (os error " ++ toString code ++ ")"
  | none => fault.text

/-- Why a line is not a record. -/
inductive RecordDefect where
  | pastEnd
  | short
  | flag
  | slot
  | counter
  | colon
  deriving DecidableEq, Repr

def RecordDefect.message : RecordDefect → String
  | .pastEnd => "offset past end of store"
  | .short => "record shorter than its header"
  | .flag => "bad liveness flag"
  | .slot => "sort slot is not hex"
  | .counter => "modification counter is not hex"
  | .colon => "missing ':' before key"

inductive Error where
  | io (fault : SystemFault)
  | invalidHeader
  | malformed (offset : Nat) (defect : RecordDefect)
  | lock (fault : SystemFault)
  | contention (offset : Nat)
  | invalidData (fault : TokenFault)
  deriving DecidableEq, Repr

def Error.message : Error → String
  | .io fault => "I/O error: " ++ fault.message
  | .invalidHeader => "Invalid header"
  | .malformed offset defect =>
    "Malformed record at offset " ++ toString offset ++ ": " ++ defect.message
  | .lock fault => "Lock error: " ++ fault.message
  | .contention offset => "Offset " ++ toString offset ++ " is locked"
  | .invalidData fault => "Invalid data: " ++ fault.message

/-- A malformed record, a refused lock and bad input leave the handle usable. -/
def Error.isFatal : Error → Bool
  | .io _ | .invalidHeader | .lock _ => true
  | .malformed .. | .contention _ | .invalidData _ => false

end RecordStore
