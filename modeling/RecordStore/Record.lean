import RecordStore.Error
import RecordStore.Hex
import RecordStore.Percent

/-!
# Record lines

A record is the line `+ssssssss.mmmm:key name=value name=value`: a flag, `+` while the record is
live and `-` once it is dead; the sort slot; a separator byte; the modification counter; a colon;
the key, through the first delimiter; then tokens, of which those with a `=` are fields.

* `hasSlot`, `keyOf` — what can be read off any line, well formed or not.
* `Record` — a line that passes every check of `defect?`; `Record.decode` finds one at an offset.
* `Record.fields`, `Record.fieldSpan?` — all fields in order, and the place of one value.
* `encodeRecord`, `Record.withField` — a new line, and a copy with one field set.
-/

set_option autoImplicit false

namespace RecordStore

def liveFlag : UInt8 := '+'.toUInt8

def deadFlag : UInt8 := '-'.toUInt8

/-- Where the sort slot stands in a record line. -/
def slotAt : Nat := 1

/-- Where the modification counter stands. -/
def modCountAt : Nat := 10

/-- Where the key starts. -/
def keyAt : Nat := 15

/-- The slot of a record that no sort has placed yet. -/
def unsorted : UInt32 := 0

/-! ## What any line shows -/

/-- The sort slot that a line carries. -/
def slot? (text : Bytes) : Option UInt32 := Hex.parse? ((text.drop slotAt).take Hex.wordLen)

/-- Whether a line is complete and carries a sort slot, whatever else it holds. -/
def hasSlot (text : Bytes) : Bool := keyAt < text.length && endsLine text && (slot? text).isSome

/-- The key of a line; empty for one too short to carry a key. -/
def keyOf (text : Bytes) : Bytes := (text.drop keyAt).takeWhile fun b => !isDelimiter b

/-- The first rule of the record format that a line breaks. -/
def defect? (text : Bytes) : Option RecordDefect :=
  if text.length ≤ keyAt then some .short
  else if text.head? ≠ some liveFlag ∧ text.head? ≠ some deadFlag then some .flag
  else if (slot? text).isNone then some .slot
  else if (Hex.parse? ((text.drop modCountAt).take 4)).isNone then some .counter
  else if text[keyAt - 1]? ≠ some ':'.toUInt8 then some .colon
  else none

/-! ## Records -/

/-- A well-formed record line and where it stands. -/
structure Record extends Line where
  wellFormed : defect? text = none
  deriving DecidableEq, Repr

/-- A named value of a record. -/
structure Field where
  name : Bytes
  value : Bytes
  deriving DecidableEq, Repr

/-- Splits a token at its first `=`. -/
def Field.ofToken? (text : Bytes) : Option Field :=
  if equals ∈ text then
    some ⟨text.takeWhile (· != equals), (text.dropWhile (· != equals)).drop 1⟩
  else none

/-- The token that carries a field. -/
def Field.token (field : Field) : Bytes := field.name ++ [equals] ++ field.value

namespace Record

/-- Checks a line. -/
def ofLine (line : Line) : Except RecordDefect Record :=
  match h : defect? line.text with
  | none => .ok { line with wellFormed := h }
  | some defect => .error defect

/-- The well-formed record that a line is, if it is one. -/
def ofLine? (line : Line) : Option Record := (ofLine line).toOption

/-- The record whose line starts at `offset`. -/
def decode (data : Bytes) (offset : Nat) : Except Error Record :=
  if data.length ≤ offset then .error (.malformed offset .pastEnd)
  else (ofLine ⟨offset, takeLine (data.drop offset)⟩).mapError (.malformed offset)

def isLive (r : Record) : Bool := r.text.head? == some liveFlag

def slot (r : Record) : UInt32 := (slot? r.text).getD unsorted

def modCount (r : Record) : UInt32 := (Hex.parse? ((r.text.drop modCountAt).take 4)).getD 0

def key (r : Record) : Bytes := keyOf r.text

def span (r : Record) : Span := r.toLine.span

/-- What follows the key, cut into tokens. -/
def tokens (r : Record) : List Token :=
  tokensFrom (keyAt + r.key.length) (r.text.drop (keyAt + r.key.length))

/-- The fields in order.  Tokens without `=` are no fields. -/
def fields (r : Record) : List Field := r.tokens.filterMap fun token => Field.ofToken? token.text

/-- Where the value stands in the line, for the first token that starts with `name=`. -/
def fieldSpan? (r : Record) (name : Bytes) : Option Span :=
  r.tokens.findSome? fun token =>
    if (name ++ [equals]).isPrefixOf token.text then
      some ⟨token.offset + (name.length + 1), token.text.length - (name.length + 1)⟩
    else none

/-- The value of the field `name`. -/
def field? (r : Record) (name : Bytes) : Option Bytes :=
  (r.fieldSpan? name).map fun span => span.read r.text

/-- The value of the field `name`, percent escapes undone. -/
def fieldDecoded? (r : Record) (name : Bytes) : Option Bytes :=
  (r.field? name).map Percent.decode

/-- The line without its newline. -/
def body (r : Record) : Bytes := if endsLine r.text then r.text.dropLast else r.text

/-- A new live, unsorted line with one field set and all else kept, the modification counter
included. -/
def withField (r : Record) (field : Field) : Bytes :=
  let kept := match r.fieldSpan? field.name with
    | some place =>
      (r.body.take place.offset).drop (slotAt + Hex.wordLen) ++ field.value
        ++ r.body.drop (place.offset + place.length)
    | none => r.body.drop (slotAt + Hex.wordLen) ++ [space] ++ field.token
  [liveFlag] ++ Hex.word unsorted ++ kept ++ [newline]

end Record

/-- The line of a new record: live, unsorted and never modified. -/
def encodeRecord (key : Bytes) (fields : List Field) : Bytes :=
  [liveFlag] ++ Hex.word unsorted ++ ascii ['.', '0', '0', '0', '0', ':'] ++ key
    ++ fields.flatMap (fun field => space :: field.token) ++ [newline]

/-- The complete, well-formed records of a region that starts at `start`, in file order. -/
def recordsFrom (start : Nat) (data : Bytes) : List Record :=
  ((linesFrom start data).filter fun line => endsLine line.text).filterMap Record.ofLine?

/-- The live ones among them. -/
def liveRecordsFrom (start : Nat) (data : Bytes) : List Record :=
  (recordsFrom start data).filter Record.isLive

example : defect? (encodeRecord (ascii ['k']) [⟨ascii ['a'], ascii ['1']⟩]) = none := by decide

end RecordStore
