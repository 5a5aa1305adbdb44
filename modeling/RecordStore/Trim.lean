import RecordStore.Header
import RecordStore.Record

/-!
# Trimming

Dead records are dropped only while nobody has the store open: every other line is copied behind
the header, in order, without its sort slot, and the header asks for a sort.  Until that sort the
copy can be searched by its tail alone.

* `trimBytes?` — the copy and its statistics, or `none` where the first line is no header.
-/

set_option autoImplicit false

namespace RecordStore

/-- What a trim did. -/
structure TrimStats where
  /-- Lines kept that are well-formed records. -/
  kept : Nat
  /-- Lines dropped. -/
  dropped : Nat
  bytesBefore : Nat
  bytesAfter : Nat
  deriving DecidableEq, Repr

/-- Whether a trim drops a line. -/
def isDeadLine (text : Bytes) : Bool := text.head? == some deadFlag

/-- A line without its sort slot. -/
def clearSlot (text : Bytes) : Bytes :=
  if hasSlot text then
    text.take slotAt ++ Hex.word unsorted ++ text.drop (slotAt + Hex.wordLen)
  else text

/-- Copies the bytes of a store without its dead lines. -/
def trimBytes? (bytes : Bytes) : Option (Bytes × TrimStats) := do
  let header ← Header.decode? (takeLine bytes)
  let body := lines (dropLine bytes)
  let keptLines := body.filter fun text => !isDeadLine text
  let copy := { header with sinceSort := Header.freshSinceSort }.encode
    ++ keptLines.flatMap clearSlot
  pure (copy, {
    kept := (keptLines.filter fun text => (defect? text).isNone).length
    dropped := (body.filter isDeadLine).length
    bytesBefore := bytes.length
    bytesAfter := copy.length })

end RecordStore
