import RecordStore.Hex
import RecordStore.Token

/-!
# Percent escapes

Field values that must carry arbitrary bytes are escaped by the caller: ASCII letters, digits and
`.` stand for themselves, any other byte becomes `%` and two lower-case hex digits.

Decoding undoes this.  An escape that is cut off, is not hex or spells the zero byte comes back as
one `?`.
-/

set_option autoImplicit false

namespace RecordStore.Percent

def mark : UInt8 := '%'.toUInt8

/-- What an unreadable escape decodes to. -/
def unknown : UInt8 := '?'.toUInt8

/-- Bytes that stand for themselves. -/
def isPlain (b : UInt8) : Bool :=
  ('0'.toUInt8 ≤ b && b ≤ '9'.toUInt8) || ('a'.toUInt8 ≤ b && b ≤ 'z'.toUInt8)
    || ('A'.toUInt8 ≤ b && b ≤ 'Z'.toUInt8) || b == '.'.toUInt8

def encodeByte (b : UInt8) : Bytes :=
  if isPlain b then [b] else [mark, Hex.digit (b.toNat / 16), Hex.digit (b.toNat % 16)]

def encode (raw : Bytes) : Bytes := raw.flatMap encodeByte

/-- The byte that two escaped digits stand for. -/
def escaped (high low : UInt8) : UInt8 :=
  match Hex.digit? high, Hex.digit? low with
  | some h, some l => if 16 * h + l = 0 then unknown else UInt8.ofNat (16 * h + l)
  | _, _ => unknown

def decode : Bytes → Bytes
  | [] => []
  | [b] => if b = mark then [unknown] else [b]
  | [b, c] => if b = mark then [unknown] else b :: decode [c]
  | b :: high :: low :: rest =>
    if b = mark then escaped high low :: decode rest else b :: decode (high :: low :: rest)

example : encode (ascii ['a', ' ', '\n']) = ascii ['a', '%', '2', '0', '%', '0', 'a'] := by decide
example : decode (ascii ['%', '2', 'F', '%', '0', '0', '%', 'z']) = ascii ['/', '?', '?'] := by
  decide

end RecordStore.Percent
