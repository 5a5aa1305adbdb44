import RecordStore.Call

/-!
# What a store holds

A store is a map from keys to ordered lists of fields.  The file is one way to write such a map
down: its complete, well-formed, live records, each with the fields of its line.

* `setField` — one field set in a list: in its place if the name is there, else at the end.
* `Contents.write`, `Contents.delete`, `Contents.after` — what calls make of the map.
* `Contents.ofBytes` — the map that a file writes down.
* `Holds` — a list of records with no key twice, whose map is the given one.

Principal results: `valueOf?_setField_self` and `valueOf?_setField_of_ne` — setting a field changes
what is read of that name only; `write_self_of_none`, `write_self_of_some`, `delete_self` — what a call
makes of its key.
-/

set_option autoImplicit false

namespace RecordStore

/-- Sets a field: the first of its name gets the value, and a new name goes to the end. -/
def setField : List Field → Field → List Field
  | [], field => [field]
  | f :: more, field => if f.name = field.name then field :: more else f :: setField more field

/-- The value that a list of fields has for a name. -/
def valueOf? (fields : List Field) (name : Bytes) : Option Bytes :=
  (fields.find? fun f => f.name == name).map Field.value

theorem valueOf?_setField_self (fields : List Field) (field : Field) :
    valueOf? (setField fields field) field.name = some field.value := by
  induction fields with
  | nil => simp [valueOf?, setField]
  | cons f more ih =>
    by_cases h : f.name = field.name
    · simp [valueOf?, setField, h]
    · simpa [valueOf?, setField, h] using ih

theorem valueOf?_setField_of_ne {fields : List Field} {field : Field} {name : Bytes}
    (h : name ≠ field.name) : valueOf? (setField fields field) name = valueOf? fields name := by
  induction fields with
  | nil => simp [valueOf?, setField, Ne.symm h]
  | cons f more ih =>
    by_cases hf : f.name = field.name
    · simp [valueOf?, setField, hf, Ne.symm h]
    · by_cases hn : f.name = name
      · simp [valueOf?, setField, hn, h]
      · simpa [valueOf?, setField, hf, hn] using ih

/-- A map from keys to ordered lists of fields. -/
abbrev Contents := Bytes → Option (List Field)

namespace Contents

def empty : Contents := fun _ => none

def set (c : Contents) (key : Bytes) (fields : List Field) : Contents :=
  fun k => if k = key then some fields else c k

/-- Sets a field of a key, which is created if it is absent.  Without a field, a key that is there
is left alone. -/
def write (c : Contents) (key : Bytes) (field : Option Field) : Contents :=
  match c key, field with
  | some _, none => c
  | some fields, some field => c.set key (setField fields field)
  | none, field => c.set key field.toList

def delete (c : Contents) (key : Bytes) : Contents := fun k => if k = key then none else c k

/-- What a completed call makes of the map. -/
def after (c : Contents) : Call → Contents
  | .write request => c.write request.key request.field
  | .delete key => c.delete key
  | _ => c

theorem write_self_of_none {c : Contents} {key : Bytes} (h : c key = none) (field : Option Field) :
    c.write key field key = some field.toList := by
  simp [write, h, set]

theorem write_self_of_some {c : Contents} {key : Bytes} {fields : List Field}
    (h : c key = some fields) (field : Field) :
    c.write key (some field) key = some (setField fields field) := by
  simp [write, h, set]

theorem delete_self (c : Contents) (key : Bytes) : c.delete key key = none := by
  simp [delete]

theorem delete_of_ne {c : Contents} {key other : Bytes} (h : other ≠ key) :
    c.delete key other = c other := by
  simp [delete, h]

/-- The map of some records: the first record of a key counts. -/
def ofRecords (records : List Record) : Contents :=
  fun key => (records.find? fun r => r.key == key).map Record.fields

/-- The map that a file writes down behind a header of `headLen` bytes. -/
def ofBytes (data : Bytes) (headLen : Nat) : Contents := ofRecords (liveRecordsFrom headLen data)

end Contents

/-- Records with distinct keys whose map is `c`. -/
structure Holds (records : List Record) (c : Contents) : Prop where
  distinct : (records.map Record.key).Nodup
  agrees : Contents.ofRecords records = c

theorem Holds.nil : Holds [] .empty := ⟨List.nodup_nil, rfl⟩

end RecordStore
