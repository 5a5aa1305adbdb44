import RecordStore.Bytes

/-!
# Hexadecimal words

Counters and slots are written as eight lower-case hex digits and read from one to eight digits of
either case; signs and blanks are refused.
-/

set_option autoImplicit false

namespace RecordStore.Hex

/-- The value of a hex digit of either case. -/
def digit? (b : UInt8) : Option Nat :=
  if '0'.toUInt8 ≤ b ∧ b ≤ '9'.toUInt8 then some (b.toNat - 48)
  else if 'a'.toUInt8 ≤ b ∧ b ≤ 'f'.toUInt8 then some (b.toNat - 87)
  else if 'A'.toUInt8 ≤ b ∧ b ≤ 'F'.toUInt8 then some (b.toNat - 55)
  else none

/-- The lower-case digit of a value below sixteen. -/
def digit (n : Nat) : UInt8 :=
  if n < 10 then UInt8.ofNat (48 + n) else UInt8.ofNat (87 + n)

/-- The digits' values, if every byte is a hex digit. -/
def digits? : Bytes → Option (List Nat)
  | [] => some []
  | b :: rest =>
    match digit? b, digits? rest with
    | some d, some ds => some (d :: ds)
    | _, _ => none

/-- The number that digit values spell, most significant first. -/
def ofDigits (ds : List Nat) : Nat := ds.foldl (fun acc d => 16 * acc + d) 0

/-- Reads one to eight hex digits. -/
def parse? (s : Bytes) : Option UInt32 :=
  if s = [] ∨ 8 < s.length then none
  else (digits? s).map fun ds => UInt32.ofNat (ofDigits ds)

/-- How many digits a written word has. -/
def wordLen : Nat := 8

/-- What one unit at each of the eight places is worth. -/
def places : List Nat :=
  [0x10000000, 0x1000000, 0x100000, 0x10000, 0x1000, 0x100, 0x10, 0x1]

/-- The eight digits of a word. -/
def word (v : UInt32) : Bytes := places.map fun place => digit (v.toNat / place % 16)

theorem length_word (v : UInt32) : (word v).length = wordLen := rfl

example : word 0x23 = ascii ['0', '0', '0', '0', '0', '0', '2', '3'] := by decide
example : parse? (ascii ['a', 'B', '1', '2']) = some 0xab12 := by decide
example : parse? (ascii ['+', '1']) = none := by decide

end RecordStore.Hex
