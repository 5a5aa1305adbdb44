import RecordStore.Record

/-!
# The sort plan

Records never move.  After a sort, the `i`-th line that carries a slot names, in that slot, the
line that is `i`-th in the order of keys.  Lines too damaged to be records keep their place in the
plan as long as they carry a slot, so that no stale slot outlives a sort.

* `compareKeys` — the order of keys: byte by byte, a proper prefix first.
* `sortPlan` — each line with a slot, paired with the line that its slot must name.
-/

set_option autoImplicit false

namespace RecordStore

/-- Keys are ordered byte by byte; a proper prefix comes first. -/
def compareKeys : Bytes → Bytes → Ordering
  | [], [] => .eq
  | [], _ :: _ => .lt
  | _ :: _, [] => .gt
  | a :: as, b :: bs => if a < b then .lt else if b < a then .gt else compareKeys as bs

namespace Index

/-- The lines that take part in a sort, in file order. -/
def slotted (data : Bytes) (headLen : Nat) : List Line :=
  (linesFrom headLen data).filter fun line => hasSlot line.text

/-- The same lines in the order of their keys; equal keys keep their file order. -/
def sorted (data : Bytes) (headLen : Nat) : List Line :=
  (slotted data headLen).mergeSort fun a b => (compareKeys (keyOf a.text) (keyOf b.text)).isLE

/-- The offsets of the lines that take part in a sort. -/
def physicalRecords (data : Bytes) (headLen : Nat) : List Nat :=
  (slotted data headLen).map Line.offset

/-- For each line that takes part, in file order: its offset, and the offset its slot must name. -/
def sortPlan (data : Bytes) (headLen : Nat) : List (Nat × Nat) :=
  (physicalRecords data headLen).zip ((sorted data headLen).map Line.offset)

end Index

end RecordStore
