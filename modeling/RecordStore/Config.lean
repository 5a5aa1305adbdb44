import RecordStore.Bytes

/-!
# Handle configuration
-/

set_option autoImplicit false

namespace RecordStore

/-- How a handle is opened and behaves. -/
structure Config where
  path : Bytes
  /-- Appends since the last sort that are tolerated before the next one sorts. -/
  resortLimit : UInt32
  /-- Create the file if it does not exist. -/
  create : Bool
  /-- Refuse instead of waiting for a record lock. -/
  nonblocking : Bool
  /-- Flush a new record to disk before the one it replaces dies. -/
  syncAppends : Bool
  deriving DecidableEq, Repr

namespace Config

def defaultResortLimit : UInt32 := 128

/-- The default settings for a store at `path`. -/
def ofPath (path : Bytes) : Config := ⟨path, defaultResortLimit, true, false, false⟩

def defaultPath : Bytes := ascii ['.', '/', 's', 't', 'o', 'r', 'e', '.', 'k', 'p']

end Config

end RecordStore
