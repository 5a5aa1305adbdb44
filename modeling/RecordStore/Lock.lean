import RecordStore.Error

/-!
# Byte locks

A lock covers four bytes from its offset on, whether or not the file reaches that far.  Each holder
has, per byte, no lock, a shared or an exclusive one.  A holder never conflicts with itself: taking
a lock replaces what it held on those bytes.

* `LockTable.acquire?` — takes a lock unless another holder is in the way.
* `LockTable.clear`, `LockTable.release` — gives up one range, or everything a holder has.
* `lockFault?` — the offsets that cannot be locked at all.
-/

set_option autoImplicit false

namespace RecordStore

inductive LockKind where
  | shared
  | exclusive
  deriving DecidableEq, Repr

/-- Who holds a lock. -/
abbrev HolderId := Nat

/-- How many bytes a lock covers. -/
def lockLen : Nat := 4

/-- The offset that every open handle holds shared. -/
def presenceOffset : Nat := 0

/-- The offset whose lock serialises opening, appending and sorting. -/
def structuralOffset : Nat := 4

/-- The least number that is no signed 64-bit number, and so no offset. -/
def offsetLimit : Nat := 0x8000000000000000

/-- A lock starts at an offset, and its last byte must be one too. -/
def lockFault? (offset : Nat) : Option SystemFault :=
  if offsetLimit ≤ offset then some .invalidArgument
  else if offsetLimit < offset + lockLen then some .valueTooLarge
  else none

/-- One byte locked by one holder. -/
structure ByteLock where
  holder : HolderId
  byte : Nat
  kind : LockKind
  deriving DecidableEq, Repr

/-- All locks on one file. -/
structure LockTable where
  held : List ByteLock
  deriving DecidableEq, Repr

namespace LockTable

def empty : LockTable := ⟨[]⟩

/-- Whether a byte lies in the range of a lock at `offset`. -/
def covers (offset byte : Nat) : Bool := offset ≤ byte && byte < offset + lockLen

/-- What `holder` has on a byte. -/
def kindAt? (table : LockTable) (holder : HolderId) (byte : Nat) : Option LockKind :=
  (table.held.find? fun lock => lock.holder == holder && lock.byte == byte).map ByteLock.kind

/-- Whether `holder` has an exclusive lock on the whole range at `offset`. -/
def holdsExclusive (table : LockTable) (holder : HolderId) (offset : Nat) : Bool :=
  (List.range' offset lockLen).all fun byte => table.kindAt? holder byte == some .exclusive

/-- Whether another holder keeps `holder` from a lock of this kind at `offset`. -/
def blocks (table : LockTable) (holder : HolderId) (offset : Nat) (kind : LockKind) : Bool :=
  table.held.any fun lock =>
    lock.holder != holder && covers offset lock.byte
      && (lock.kind == .exclusive || kind == .exclusive)

/-- Gives up what `holder` has on the range at `offset`. -/
def clear (table : LockTable) (holder : HolderId) (offset : Nat) : LockTable :=
  ⟨table.held.filter fun lock => !(lock.holder == holder && covers offset lock.byte)⟩

/-- Replaces what `holder` has on the range at `offset`. -/
def set (table : LockTable) (holder : HolderId) (offset : Nat) (kind : LockKind) : LockTable :=
  ⟨(List.range' offset lockLen).map (fun byte => ⟨holder, byte, kind⟩)
    ++ (table.clear holder offset).held⟩

/-- Takes a lock, unless another holder is in the way. -/
def acquire? (table : LockTable) (holder : HolderId) (offset : Nat) (kind : LockKind) :
    Option LockTable :=
  if table.blocks holder offset kind then none else some (table.set holder offset kind)

/-- Gives up every lock of `holder`. -/
def release (table : LockTable) (holder : HolderId) : LockTable :=
  ⟨table.held.filter fun lock => lock.holder != holder⟩

end LockTable

example : (LockTable.empty.set 1 100 .exclusive).acquire? 2 102 .shared = none := by decide
example : ((LockTable.empty.set 1 100 .exclusive).acquire? 2 104 .exclusive).isSome := by decide

end RecordStore
