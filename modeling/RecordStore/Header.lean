import RecordStore.Hex

/-!
# The header line

A store file starts with the line `$Vvvvvv ssssssss mmmmmmmm cccccccc`: five version bytes, the
append sequence, the second of the last modification and the number of appends since the last sort.

* `Header.encode` / `Header.decode?` — the line and its reading.  The version bytes are arbitrary
  and may even hold a newline.
* `counterAt?` — one counter, read out of a header image.
-/

set_option autoImplicit false

namespace RecordStore

structure Header where
  version : Bytes
  appendSeq : UInt32
  modified : UInt32
  sinceSort : UInt32
  version_length : version.length = 5
  deriving DecidableEq, Repr

namespace Header

def length : Nat := 35

/-- Where the append sequence stands. -/
def appendSeqAt : Nat := 8

/-- Where the modification second stands. -/
def modifiedAt : Nat := 17

/-- Where the count of appends since the last sort stands. -/
def sinceSortAt : Nat := 26

/-- The count in a brand-new header, large enough that the first open sorts. -/
def freshSinceSort : UInt32 := 0x0FFFFFFF

/-- The header of a brand-new store. -/
def fresh : Header :=
  ⟨ascii ['0', '0', '.', '0', '0'], 0, 0, freshSinceSort, rfl⟩

instance : Inhabited Header := ⟨fresh⟩

def magic : Bytes := ascii ['$', 'V']

def blank : UInt8 := ' '.toUInt8

def encode (h : Header) : Bytes :=
  magic ++ h.version ++ [blank] ++ Hex.word h.appendSeq ++ [blank] ++ Hex.word h.modified
    ++ [blank] ++ Hex.word h.sinceSort ++ [newline]

/-- The eight-digit counter at `offset`. -/
def counterAt? (bytes : Bytes) (offset : Nat) : Option UInt32 :=
  if offset + Hex.wordLen ≤ bytes.length then Hex.parse? ((bytes.drop offset).take Hex.wordLen)
  else none

/-- The bytes that a header has at fixed places. -/
def framed (bytes : Bytes) : Bool :=
  bytes.take 2 == magic && bytes[34]? == some newline
    && bytes[7]? == some blank && bytes[16]? == some blank && bytes[25]? == some blank

/-- Reads a header off the front of `bytes`. -/
def decode? (bytes : Bytes) : Option Header :=
  if h : length ≤ bytes.length then
    if framed bytes then
      match counterAt? bytes appendSeqAt, counterAt? bytes modifiedAt,
          counterAt? bytes sinceSortAt with
      | some appendSeq, some modified, some sinceSort =>
        some ⟨(bytes.drop 2).take 5, appendSeq, modified, sinceSort, by
          simp [length] at h ⊢; omega⟩
      | _, _, _ => none
    else none
  else none

example : decode? (encode fresh) = some fresh := by decide

end Header

end RecordStore
