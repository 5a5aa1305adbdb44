import RecordStore.Bytes

/-!
# Tokens

Keys, field names and values are stored verbatim, so none may hold a delimiter: a space, a tab or a
newline.  Keys and names may not be empty, and a name may not hold the `=` that ends it.

* `keyFault?`, `nameFault?`, `valueFault?` — the first rule a token breaks, if any.
* `tokensFrom` — the maximal runs of other bytes, each with its offset.
-/

set_option autoImplicit false

namespace RecordStore

def space : UInt8 := ' '.toUInt8

def tab : UInt8 := '\t'.toUInt8

def equals : UInt8 := '='.toUInt8

/-- Bytes that separate tokens. -/
def isDelimiter (b : UInt8) : Bool := b == space || b == tab || b == newline

/-- What a token is used for. -/
inductive TokenRole where
  | key
  | fieldName
  | value
  deriving DecidableEq, Repr

def TokenRole.text : TokenRole → String
  | .key => "key"
  | .fieldName => "field name"
  | .value => "value"

/-- Why a token cannot be stored verbatim. -/
inductive TokenFault where
  | empty (role : TokenRole)
  | delimiter (role : TokenRole)
  | separator
  deriving DecidableEq, Repr

def TokenFault.message : TokenFault → String
  | .empty role => role.text ++ " must not be empty"
  | .delimiter role => role.text ++ " contains a space, tab or newline"
  | .separator => "field name contains '='"

/-- The fault that keeps `key` from being stored. -/
def keyFault? (key : Bytes) : Option TokenFault :=
  if key = [] then some (.empty .key)
  else if key.any isDelimiter then some (.delimiter .key)
  else none

/-- The fault that keeps `name` from naming a field. -/
def nameFault? (name : Bytes) : Option TokenFault :=
  if name = [] then some (.empty .fieldName)
  else if name.any isDelimiter then some (.delimiter .fieldName)
  else if equals ∈ name then some .separator
  else none

/-- The fault that keeps `value` from being stored. -/
def valueFault? (value : Bytes) : Option TokenFault :=
  if value.any isDelimiter then some (.delimiter .value) else none

/-- A maximal run of bytes without a delimiter, and where it starts. -/
structure Token where
  offset : Nat
  text : Bytes
  deriving DecidableEq, Repr

/-- The tokens of `s`, whose first byte stands at `start`.  A byte that directly precedes a token
belongs to it. -/
def tokensFrom (start : Nat) : Bytes → List Token
  | [] => []
  | b :: rest =>
    let later := tokensFrom (start + 1) rest
    if isDelimiter b then later
    else match later with
      | [] => [⟨start, [b]⟩]
      | token :: more =>
        if token.offset = start + 1 then ⟨start, b :: token.text⟩ :: more
        else ⟨start, [b]⟩ :: token :: more

example :
    (tokensFrom 3 (ascii [' ', 'a', 'b', '\t', ' ', 'c', '\n'])).map Token.offset = [4, 8] := by
  decide

end RecordStore
