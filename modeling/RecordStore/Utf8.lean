import RecordStore.Bytes

/-!
# UTF-8 repair

Texts are shown as UTF-8.  Bytes that are no UTF-8 are replaced by U+FFFD, one for every maximal
stretch that begins a character but does not finish it, and one for every other stray byte.

* `step` — one character or one replaced stretch, and what follows it.
* `repair` — the text with every such stretch replaced.
-/

set_option autoImplicit false

namespace RecordStore.Utf8

/-- The bytes of U+FFFD. -/
def replacement : Bytes := [0xEF, 0xBF, 0xBD]

def isContinuation (b : UInt8) : Bool := 0x80 ≤ b && b ≤ 0xBF

/-- How many bytes follow a first byte in its character. -/
def following (first : UInt8) : Option Nat :=
  if first ≤ 0x7F then some 0
  else if 0xC2 ≤ first && first ≤ 0xDF then some 1
  else if 0xE0 ≤ first && first ≤ 0xEF then some 2
  else if 0xF0 ≤ first && first ≤ 0xF4 then some 3
  else none

/-- Whether `second` may stand after `first`: this rules out overlong forms, surrogates and numbers
beyond the last character. -/
def fits (first second : UInt8) : Bool :=
  isContinuation second
    && !(first == 0xE0 && second < 0xA0) && !(first == 0xED && 0x9F < second)
    && !(first == 0xF0 && second < 0x90) && !(first == 0xF4 && 0x8F < second)

/-- The length of the longest prefix of `rest` that can follow `first` within its character of
`count` further bytes. -/
def goodPrefix (first : UInt8) (count : Nat) (rest : Bytes) : Nat :=
  match rest.take count with
  | [] => 0
  | second :: more => if fits first second then 1 + (more.takeWhile isContinuation).length else 0

/-- One character or one replaced stretch, and what follows it. -/
def step (first : UInt8) (rest : Bytes) : Bytes × Bytes :=
  match following first with
  | none => (replacement, rest)
  | some count =>
    let good := goodPrefix first count rest
    (if good = count then first :: rest.take count else replacement, rest.drop good)

theorem length_step_le (first : UInt8) (rest : Bytes) :
    (step first rest).2.length ≤ rest.length := by
  unfold step
  split <;> simp

/-- The text that some bytes are shown as. -/
def repair : Bytes → Bytes
  | [] => []
  | first :: rest =>
    let next := step first rest
    next.1 ++ repair next.2
termination_by s => s.length
decreasing_by
  have := length_step_le first rest
  simp only [List.length_cons]
  omega

end RecordStore.Utf8
