import Mathlib.Data.List.Forall2
import Mathlib.Tactic.Common
import RecordStore.Proofs.Patches
import RecordStore.Proofs.Fields
import RecordStore.Proofs.Search

/-!
# What a sort writes

A sort exchanges the slots of the lines that carry one and nothing else.  Afterwards the slots, read
in file order, lead through these lines in the order of their keys, and this stays so while the
lines keep their places, slots and keys, whatever else becomes of them.

* `Entry`, `entries` — what the slots of a region depend on.
* `Routed` — the slots lead through the lines in the order of their keys.
* `withSlot`, `fillSlots` — a line with another slot; lines with the slots that a sort gives them.

Principal results: `applyAll_sortPlan_view` — the effect of a sort on the file; `routed_fillSlots` —
a sort routes; `inKeyOrder_of_routed` and `exists_pivot_of_routed` — what a search needs of the slots.
-/

set_option autoImplicit false

namespace RecordStore.Index

/-- A line with a slot: where it stands, what its slot says, and its key. -/
structure Entry where
  offset : Nat
  slot : UInt32
  key : Bytes
  deriving DecidableEq, Repr

/-- Where a line stands, and its key. -/
def Entry.place (entry : Entry) : Nat × Bytes := (entry.offset, entry.key)

def Entry.of? (line : Line) : Option Entry :=
  if hasSlot line.text then (slot? line.text).map fun slot => ⟨line.offset, slot, keyOf line.text⟩
  else none

def entries (lines : List Line) : List Entry := lines.filterMap Entry.of?

theorem entries_cons_some {line : Line} {entry : Entry} (h : Entry.of? line = some entry)
    (more : List Line) : entries (line :: more) = entry :: entries more :=
  List.filterMap_cons_some h

theorem entries_cons_none {line : Line} (h : Entry.of? line = none) (more : List Line) :
    entries (line :: more) = entries more :=
  List.filterMap_cons_none h

/-- Some order of the lines by their keys is the order in which the slots name them. -/
def Routed (es : List Entry) : Prop :=
  ∃ order : List (Nat × Bytes), order.Perm (es.map Entry.place) ∧
    order.Pairwise (fun a b => (compareKeys a.2 b.2).isLE = true) ∧
    es.map (fun e => e.slot.toNat) = order.map Prod.fst

theorem Routed.nil : Routed [] := ⟨[], List.Perm.refl _, List.Pairwise.nil, rfl⟩

theorem Entry.of?_eq_some_iff {line : Line} {entry : Entry} :
    Entry.of? line = some entry ↔ hasSlot line.text = true ∧ slot? line.text = some entry.slot ∧
      entry.offset = line.offset ∧ entry.key = keyOf line.text := by
  unfold Entry.of?
  split
  · next h =>
    rw [Option.map_eq_some_iff]
    constructor
    · rintro ⟨slot, hslot, rfl⟩
      exact ⟨h, hslot, rfl, rfl⟩
    · rintro ⟨-, hslot, hoff, hkey⟩
      refine ⟨entry.slot, hslot, ?_⟩
      rw [← hoff, ← hkey]
  · next h => simp [h]

theorem exists_line_of_place {lines : List Line} {place : Nat × Bytes}
    (h : place ∈ (entries lines).map Entry.place) :
    ∃ line ∈ lines, line.offset = place.1 ∧ keyOf line.text = place.2 := by
  obtain ⟨entry, hentry, rfl⟩ := List.mem_map.1 h
  obtain ⟨line, hline, hof⟩ := List.mem_filterMap.1 hentry
  obtain ⟨-, -, hoff, hkey⟩ := Entry.of?_eq_some_iff.1 hof
  exact ⟨line, hline, hoff.symm, hkey.symm⟩

/-! ## What a search needs of the slots -/

variable {data : Bytes} {headLen : Nat}

/-- Two lines at one offset are one line. -/
theorem text_eq_of_mem_linesFrom {line : Line} {r : Record} (h : line ∈ linesFrom headLen data)
    (hr : r ∈ recordsFrom headLen data) (hoff : r.offset = line.offset) : r.text = line.text := by
  obtain ⟨-, -, -, htext⟩ := mem_linesFrom_iff.1 h
  obtain ⟨-, -, -, hrtext⟩ := mem_linesFrom_iff.1 (mem_recordsFrom_iff.1 hr).1
  rw [← hrtext, ← htext, ← hoff]

/-- **Along routed lines, the keys that the slots lead to are in order.** -/
theorem inKeyOrder_of_routed {texts : List Bytes} (hline : data[headLen - 1]? = some newline)
    (hsub : ∀ line ∈ linesAt headLen texts, line ∈ linesFrom headLen data)
    (hrouted : Routed (entries (linesAt headLen texts))) :
    texts.Pairwise (InKeyOrder data headLen) := by
  obtain ⟨order, hperm, hsorted, hslots⟩ := hrouted
  -- the order of the keys, seen as an order of the offsets that the slots name
  have horder : (order.map Prod.fst).Pairwise fun i j => ∀ ri rj,
      recordStartingAt? data headLen i = some ri → recordStartingAt? data headLen j = some rj →
        (compareKeys ri.key rj.key).isLE = true := by
    have hkey : ∀ place ∈ order, ∀ r, recordStartingAt? data headLen place.1 = some r →
        r.key = place.2 := by
      intro place hplace r hr
      obtain ⟨line, hmem, hoff, hkey⟩ := exists_line_of_place (hperm.mem_iff.1 hplace)
      obtain ⟨hrec, hroff⟩ := (recordStartingAt?_eq_some_iff hline).1 hr
      rw [Record.key, text_eq_of_mem_linesFrom (hsub line hmem) hrec (hroff.trans hoff.symm), hkey]
    rw [List.pairwise_map]
    refine List.Pairwise.imp_of_mem ?_ hsorted
    intro a b ha hb hab ra rb hra hrb
    rw [hkey a ha ra hra, hkey b hb rb hrb]
    exact hab
  rw [← hslots, List.pairwise_map, entries, List.pairwise_filterMap] at horder
  rw [← map_text_linesAt headLen texts, List.pairwise_map]
  refine horder.imp ?_
  intro a b hab ra rb hra hrb
  unfold slotTarget? at hra hrb
  split at hra
  · next ha =>
    split at hrb
    · next hb =>
      obtain ⟨sa, hsa, hra⟩ := Option.bind_eq_some_iff.1 hra
      obtain ⟨sb, hsb, hrb⟩ := Option.bind_eq_some_iff.1 hrb
      exact hab ⟨a.offset, sa, keyOf a.text⟩ (Entry.of?_eq_some_iff.2 ⟨ha, hsa, rfl, rfl⟩)
        ⟨b.offset, sb, keyOf b.text⟩ (Entry.of?_eq_some_iff.2 ⟨hb, hsb, rfl, rfl⟩) ra rb hra hrb
    · cases hrb
  · cases hra

/-- The slot of a routed line names a routed line. -/
theorem exists_line_of_slot {texts : List Bytes} (hrouted : Routed (entries (linesAt headLen texts)))
    {text : Bytes} (ht : text ∈ texts) (hslot : hasSlot text = true) {v : UInt32}
    (hv : slot? text = some v) : ∃ line ∈ linesAt headLen texts, line.offset = v.toNat := by
  obtain ⟨order, hperm, -, hslots⟩ := hrouted
  rw [← map_text_linesAt headLen texts] at ht
  obtain ⟨line, hline, rfl⟩ := List.mem_map.1 ht
  have hentry : (⟨line.offset, v, keyOf line.text⟩ : Entry) ∈ entries (linesAt headLen texts) :=
    List.mem_filterMap.2 ⟨line, hline, Entry.of?_eq_some_iff.2 ⟨hslot, hv, rfl, rfl⟩⟩
  have hmem : v.toNat ∈ order.map Prod.fst := by
    rw [← hslots]
    exact List.mem_map.2 ⟨_, hentry, rfl⟩
  obtain ⟨place, hplace, hoff⟩ := List.mem_map.1 hmem
  obtain ⟨line', hline', hoff', -⟩ := exists_line_of_place (hperm.mem_iff.1 hplace)
  exact ⟨line', hline', hoff'.trans hoff⟩

/-- A routed line is not unsorted. -/
theorem slot?_ne_of_routed {texts : List Bytes} (hpos : 0 < headLen)
    (hrouted : Routed (entries (linesAt headLen texts))) {text : Bytes} (ht : text ∈ texts)
    (hslot : hasSlot text = true) : slot? text ≠ some unsorted := by
  intro hv
  obtain ⟨line, hline, hoff⟩ := exists_line_of_slot hrouted ht hslot hv
  obtain ⟨front, back, -, hstart⟩ := mem_linesAt_iff.1 hline
  rw [hstart, show unsorted.toNat = 0 from rfl] at hoff
  omega

theorem hasSlot_of_defect? {text : Bytes} (h : defect? text = none) (hend : endsLine text = true) :
    hasSlot text = true := by
  simp [hasSlot, hend, keyAt_lt_of_defect? h, slot?_isSome_of_defect? h]

/-- **Every record among routed lines is named by one of the slots.** -/
theorem exists_pivot_of_routed {texts : List Bytes} (hline : data[headLen - 1]? = some newline)
    (hrouted : Routed (entries (linesAt headLen texts))) {r : Record}
    (hr : r ∈ recordsFrom headLen data) (hmem : r.toLine ∈ linesAt headLen texts) :
    ∃ pivot ∈ texts, slotTarget? data headLen pivot = some r := by
  obtain ⟨order, hperm, -, hslots⟩ := hrouted
  have hhas := hasSlot_of_defect? r.wellFormed (mem_recordsFrom_iff.1 hr).2
  obtain ⟨slot, hslot⟩ := Option.isSome_iff_exists.1 (slot?_isSome_of_defect? r.wellFormed)
  have hentry : (⟨r.offset, slot, keyOf r.text⟩ : Entry) ∈ entries (linesAt headLen texts) :=
    List.mem_filterMap.2 ⟨r.toLine, hmem, Entry.of?_eq_some_iff.2 ⟨hhas, hslot, rfl, rfl⟩⟩
  have hplace := hperm.mem_iff.2 (List.mem_map_of_mem hentry)
  have hnamed : r.offset ∈ order.map Prod.fst := List.mem_map.2 ⟨_, hplace, rfl⟩
  rw [← hslots] at hnamed
  obtain ⟨entry, hin, hto⟩ := List.mem_map.1 hnamed
  obtain ⟨line, hl, hof⟩ := List.mem_filterMap.1 hin
  obtain ⟨hlhas, hlslot, -, -⟩ := Entry.of?_eq_some_iff.1 hof
  refine ⟨line.text, ?_, ?_⟩
  · rw [← map_text_linesAt headLen texts]
    exact List.mem_map_of_mem hl
  · rw [slotTarget?, if_pos hlhas, hlslot, Option.bind_some, hto]
    exact (recordStartingAt?_eq_some_iff hline).2 ⟨hr, rfl⟩

/-- A line that no sort has placed leads nowhere. -/
theorem slotTarget?_of_unsorted (hpos : 0 < headLen) {text : Bytes}
    (h : hasSlot text = false ∨ slot? text = some unsorted) :
    slotTarget? data headLen text = none := by
  unfold slotTarget?
  rcases h with h | h
  · simp [h]
  · split
    · rw [h, Option.bind_some, recordStartingAt?, if_neg]
      rintro ⟨hle, -⟩
      simp only [unsorted, UInt32.toNat_zero] at hle
      omega
    · rfl

/-! ## A line with another slot -/

/-- The write of one slot. -/
def slotPatch (place : Nat × Nat) : Patch := ⟨place.1 + slotAt, Hex.word (UInt32.ofNat place.2)⟩

/-- A line whose slot is `v`. -/
def withSlot (text : Bytes) (v : UInt32) : Bytes := (⟨slotAt, Hex.word v⟩ : Patch).apply text

section WithSlot

variable {text : Bytes} (v : UInt32)

theorem fits_slot (h : keyAt < text.length) : (⟨slotAt, Hex.word v⟩ : Patch).Fits text := by
  simp only [Patch.Fits, Hex.length_word, slotAt, Hex.wordLen, keyAt] at h ⊢
  omega

theorem length_withSlot (h : keyAt < text.length) : (withSlot text v).length = text.length :=
  Patch.length_apply (fits_slot v h)

theorem drop_withSlot (h : keyAt < text.length) {start : Nat} (hs : slotAt + Hex.wordLen ≤ start) :
    (withSlot text v).drop start = text.drop start :=
  Patch.drop_apply (fits_slot v h) hs

theorem keyOf_withSlot (h : keyAt < text.length) : keyOf (withSlot text v) = keyOf text := by
  rw [keyOf, drop_withSlot v h (by decide), keyOf]

theorem slot?_withSlot (h : keyAt < text.length) : slot? (withSlot text v) = some v := by
  have := Patch.take_drop_apply_self (fits_slot v h)
  rw [Hex.length_word] at this
  rw [slot?, withSlot, this, Hex.parse?_word]

theorem head?_withSlot (h : keyAt < text.length) : (withSlot text v).head? = text.head? :=
  Patch.head?_apply_of_pos (fits_slot v h) Nat.one_pos

theorem isLine_withSlot (h : keyAt < text.length) (hline : IsLine text) :
    IsLine (withSlot text v) := by
  refine Patch.isLine_apply hline (Hex.newline_notMem_word v) ?_
  simp only [Hex.length_word, slotAt, Hex.wordLen, keyAt] at h ⊢
  omega

theorem fieldsOf_withSlot (h : keyAt < text.length) : fieldsOf (withSlot text v) = fieldsOf text := by
  rw [fieldsOf, tailOf, keyOf_withSlot v h,
    drop_withSlot v h (Nat.le_trans (by decide) (Nat.le_add_right keyAt _))]
  rfl

theorem defect?_withSlot (h : defect? text = none) : defect? (withSlot text v) = none := by
  have hlt := keyAt_lt_of_defect? h
  have hcount : (withSlot text v).drop modCountAt = text.drop modCountAt :=
    drop_withSlot v hlt (by decide)
  have hcolon : (withSlot text v)[keyAt - 1]? = text[keyAt - 1]? := by
    have := congrArg (·[4]?) hcount
    rwa [List.getElem?_drop, List.getElem?_drop] at this
  unfold defect? at h ⊢
  rw [length_withSlot v hlt, head?_withSlot v hlt, slot?_withSlot v hlt, hcount, hcolon]
  rw [if_neg (by omega)] at h ⊢
  split at h
  · cases h
  · next hflag =>
    rw [if_neg hflag, if_neg (by simp)]
    split at h
    · cases h
    · exact h

end WithSlot

/-! ## The lines after a sort -/

/-- The lines that carry a slot get these slots, in file order. -/
def fillSlots : List Bytes → List Nat → List Bytes
  | [], _ => []
  | text :: more, targets =>
    if hasSlot text then
      match targets with
      | [] => text :: more
      | target :: rest => withSlot text (UInt32.ofNat target) :: fillSlots more rest
    else text :: fillSlots more targets

theorem fillSlots_nil (texts : List Bytes) : fillSlots texts [] = texts := by
  induction texts with
  | nil => rfl
  | cons text more ih =>
    unfold fillSlots
    split
    · rfl
    · rw [ih]

theorem keyAt_lt_of_hasSlot {text : Bytes} (h : hasSlot text = true) : keyAt < text.length := by
  simp only [hasSlot, Bool.and_eq_true, decide_eq_true_eq] at h
  exact h.1.1

/-- What holds of each line and survives another slot holds of the lines after a sort. -/
theorem forall₂_fillSlots {rel : Bytes → Bytes → Prop} (hrefl : ∀ text, rel text text)
    (hslot : ∀ text v, hasSlot text = true → rel text (withSlot text v)) (texts : List Bytes)
    (targets : List Nat) : List.Forall₂ rel texts (fillSlots texts targets) := by
  induction texts generalizing targets with
  | nil => exact List.Forall₂.nil
  | cons text more ih =>
    unfold fillSlots
    split
    · next h =>
      cases targets with
      | nil => exact List.Forall₂.cons (hrefl text) (List.forall₂_same.2 fun t _ => hrefl t)
      | cons target rest => exact List.Forall₂.cons (hslot text _ h) (ih rest)
    · exact List.Forall₂.cons (hrefl text) (ih targets)

/-- Lines that keep their lengths keep that of the whole. -/
theorem length_flatten_of_forall₂ {texts texts' : List Bytes}
    (h : List.Forall₂ (fun text text' => text'.length = text.length) texts texts') :
    texts'.flatten.length = texts.flatten.length := by
  induction h with
  | nil => rfl
  | cons hhead _ ih =>
    rw [List.flatten_cons, List.flatten_cons, List.length_append, List.length_append, hhead, ih]

theorem length_flatten_fillSlots (texts : List Bytes) (targets : List Nat) :
    (fillSlots texts targets).flatten.length = texts.flatten.length := by
  refine length_flatten_of_forall₂ (forall₂_fillSlots (fun _ => ?_) (fun text v h => ?_) _ _)
  · rfl
  · exact length_withSlot v (keyAt_lt_of_hasSlot h)

theorem exists_mem_of_forall₂ {α β : Type} {rel : α → β → Prop} {as : List α} {bs : List β}
    (h : List.Forall₂ rel as bs) {b : β} (hb : b ∈ bs) : ∃ a ∈ as, rel a b := by
  induction h with
  | nil => cases hb
  | cons hhead _ ih =>
    rcases List.mem_cons.1 hb with rfl | hb
    · exact ⟨_, List.mem_cons_self .., hhead⟩
    · obtain ⟨a, ha, hrel⟩ := ih hb
      exact ⟨a, List.mem_cons_of_mem _ ha, hrel⟩

theorem isLine_fillSlots {texts : List Bytes} (hlines : ∀ text ∈ texts, IsLine text)
    (targets : List Nat) : ∀ text ∈ fillSlots texts targets, IsLine text := by
  intro text ht
  have hall : List.Forall₂ (fun a b => IsLine a → IsLine b) texts (fillSlots texts targets) :=
    forall₂_fillSlots (fun _ h => h)
      (fun _ v h hline => isLine_withSlot v (keyAt_lt_of_hasSlot h) hline) texts targets
  obtain ⟨old, hold, himp⟩ := exists_mem_of_forall₂ hall ht
  exact himp (hlines old hold)

/-- The writes of a sort, line by line. -/
theorem applyAll_slotPatches (texts : List Bytes) (targets : List Nat) (front back : Bytes) :
    Patch.applyAll (((((linesAt front.length texts).filter fun line => hasSlot line.text).map
        Line.offset).zip targets).map slotPatch) (front ++ (texts.flatten ++ back)) =
      front ++ ((fillSlots texts targets).flatten ++ back) := by
  induction texts generalizing targets front with
  | nil => rfl
  | cons text more ih =>
    rw [linesAt, List.filter_cons]
    dsimp only
    unfold fillSlots
    split
    · next h =>
      cases targets with
      | nil => simp [Patch.applyAll]
      | cons target rest =>
        have hfits := fits_slot (UInt32.ofNat target) (keyAt_lt_of_hasSlot h)
        have hlen := length_withSlot (UInt32.ofNat target) (keyAt_lt_of_hasSlot h)
        have hshift : slotPatch (front.length, target)
            = (⟨slotAt, Hex.word (UInt32.ofNat target)⟩ : Patch).shift front.length := rfl
        have hih := ih rest (front ++ withSlot text (UInt32.ofNat target))
        rw [List.length_append, hlen] at hih
        rw [List.map_cons, List.zip_cons_cons, List.map_cons, Patch.applyAll_cons, hshift,
          List.flatten_cons, List.append_assoc, Patch.apply_middle hfits, ← List.append_assoc]
        rw [show Patch.apply _ text = withSlot text (UInt32.ofNat target) from rfl, hih]
        simp
    · have hih := ih targets (front ++ text)
      rw [List.length_append] at hih
      rw [List.flatten_cons, List.append_assoc, ← List.append_assoc, hih]
      simp

/-! ## A sort routes -/

/-- What a line shows of its entry can be read off all lines that have a slot. -/
theorem map_entries {α : Type} {f : Line → α} {g : Entry → α} (lines : List Line)
    (h : ∀ line entry, Entry.of? line = some entry → g entry = f line) :
    (entries lines).map g = (lines.filter fun line => hasSlot line.text).map f := by
  induction lines with
  | nil => rfl
  | cons line more ih =>
    rw [List.filter_cons]
    split
    · next hslot =>
      obtain ⟨entry, hof⟩ : ∃ entry, Entry.of? line = some entry := by
        simp only [hasSlot, Bool.and_eq_true] at hslot
        obtain ⟨slot, hread⟩ := Option.isSome_iff_exists.1 hslot.2
        exact ⟨⟨line.offset, slot, keyOf line.text⟩,
          Entry.of?_eq_some_iff.2 ⟨by simp only [hasSlot, hslot, Bool.and_self], hread, rfl, rfl⟩⟩
      rw [entries_cons_some hof, List.map_cons, List.map_cons, ih, h line entry hof]
    · next hslot =>
      have hof : Entry.of? line = none := by rw [Entry.of?, if_neg hslot]
      rw [entries_cons_none hof, ih]

theorem map_place_entries (lines : List Line) : (entries lines).map Entry.place =
    (lines.filter fun line => hasSlot line.text).map fun line => (line.offset, keyOf line.text) := by
  refine map_entries lines fun line entry hof => ?_
  obtain ⟨-, -, hoff, hkey⟩ := Entry.of?_eq_some_iff.1 hof
  rw [Entry.place, hoff, hkey]

theorem hasSlot_withSlot {text : Bytes} (hline : IsLine text) (h : hasSlot text = true) (v : UInt32) :
    hasSlot (withSlot text v) = true := by
  have hlt := keyAt_lt_of_hasSlot h
  have hend := (isLine_withSlot v hlt hline).endsLine
  simp [hasSlot, length_withSlot v hlt, hlt, hend, slot?_withSlot v hlt]

/-- After a sort every line stands where it stood, with the slot that the sort gave it. -/
theorem entries_fillSlots {texts : List Bytes} (hlines : ∀ text ∈ texts, IsLine text)
    {targets : List Nat} (start : Nat)
    (hcount : targets.length = ((linesAt start texts).filter fun line => hasSlot line.text).length)
    (hsmall : ∀ target ∈ targets, target < UInt32.size) :
    (entries (linesAt start (fillSlots texts targets))).map Entry.place =
        (entries (linesAt start texts)).map Entry.place ∧
      (entries (linesAt start (fillSlots texts targets))).map (fun e => e.slot.toNat) = targets := by
  induction texts generalizing targets start with
  | nil =>
    obtain rfl := List.length_eq_zero_iff.1 hcount
    exact ⟨rfl, rfl⟩
  | cons text more ih =>
    simp only [List.mem_cons, forall_eq_or_imp] at hlines
    rw [linesAt, List.filter_cons] at hcount
    dsimp only at hcount
    unfold fillSlots
    by_cases h : hasSlot text = true
    · rw [if_pos h] at hcount ⊢
      cases targets with
      | nil => cases hcount
      | cons target rest =>
        simp only [List.mem_cons, forall_eq_or_imp] at hsmall
        have hlt := keyAt_lt_of_hasSlot h
        have hlen := length_withSlot (UInt32.ofNat target) hlt
        have hnew : Entry.of? ⟨start, withSlot text (UInt32.ofNat target)⟩
            = some ⟨start, UInt32.ofNat target, keyOf text⟩ :=
          Entry.of?_eq_some_iff.2 ⟨hasSlot_withSlot hlines.1 h _, slot?_withSlot _ hlt, rfl,
            (keyOf_withSlot _ hlt).symm⟩
        obtain ⟨hplaces, hslots⟩ := ih hlines.2 (start + text.length) (Nat.succ.inj hcount) hsmall.2
        rw [linesAt, hlen, entries_cons_some hnew, List.map_cons, List.map_cons, hplaces, hslots,
          map_place_entries, map_place_entries, linesAt, List.filter_cons]
        dsimp only
        rw [if_pos h, UInt32.toNat_ofNat_of_lt' hsmall.1]
        exact ⟨rfl, rfl⟩
    · rw [if_neg h] at hcount ⊢
      have hnew : Entry.of? ⟨start, text⟩ = none := by rw [Entry.of?, if_neg h]
      obtain ⟨hplaces, hslots⟩ := ih hlines.2 (start + text.length) hcount hsmall
      rw [linesAt, linesAt, entries_cons_none hnew, entries_cons_none hnew]
      exact ⟨hplaces, hslots⟩

/-- These lines in the order of their keys. -/
def byKey (lines : List Line) : List Line :=
  (lines.filter fun line => hasSlot line.text).mergeSort fun a b =>
    (compareKeys (keyOf a.text) (keyOf b.text)).isLE

/-- **A sort routes the lines of a file** whose slots can name every line. -/
theorem routed_fillSlots_of_offsets {texts : List Bytes} (hlines : ∀ text ∈ texts, IsLine text)
    {start : Nat} (hsmall : ∀ line ∈ linesAt start texts, line.offset < UInt32.size) :
    Routed (entries (linesAt start
      (fillSlots texts ((byKey (linesAt start texts)).map Line.offset)))) := by
  have hperm := List.mergeSort_perm ((linesAt start texts).filter fun line => hasSlot line.text)
    fun a b : Line => (compareKeys (keyOf a.text) (keyOf b.text)).isLE
  have hlt : ∀ target ∈ (byKey (linesAt start texts)).map Line.offset, target < UInt32.size := by
    intro target ht
    obtain ⟨line, hline, rfl⟩ := List.mem_map.1 ht
    exact hsmall line (List.mem_filter.1 (hperm.mem_iff.1 hline)).1
  obtain ⟨hplaces, hslots⟩ := entries_fillSlots hlines start
    (by rw [List.length_map]; exact hperm.length_eq) hlt
  refine ⟨(byKey (linesAt start texts)).map fun line => (line.offset, keyOf line.text), ?_, ?_, ?_⟩
  · rw [hplaces, map_place_entries]
    exact hperm.map _
  · rw [List.pairwise_map]
    refine List.pairwise_mergeSort ?_ ?_ _
    · intro a b c hab hbc
      exact isLE_compareKeys_trans hab hbc
    · intro a b
      exact isLE_compareKeys_total _ _
  · rw [hslots, List.map_map]
    rfl

/-- A small file has no line that a slot cannot name. -/
theorem routed_fillSlots {texts : List Bytes} (hlines : ∀ text ∈ texts, IsLine text) {start : Nat}
    (hsmall : start + texts.flatten.length ≤ UInt32.size) :
    Routed (entries (linesAt start
      (fillSlots texts ((byKey (linesAt start texts)).map Line.offset)))) := by
  refine routed_fillSlots_of_offsets hlines fun line hl => ?_
  obtain ⟨front, back, heq, hoff⟩ := mem_linesAt_iff.1 hl
  have hpos := (hlines line.text (by simp [heq])).length_pos
  rw [heq, List.flatten_append, List.length_append, List.flatten_cons, List.length_append] at hsmall
  omega

theorem hasSlot_of_notMem {text : Bytes} (h : newline ∉ text) : hasSlot text = false := by
  rw [hasSlot, Bool.and_eq_false_iff, Bool.and_eq_false_iff]
  refine Or.inl (Or.inr (Bool.eq_false_iff.2 fun hend => h (newline_mem_of_endsLine hend)))

/-- An unfinished last line takes no part in a sort. -/
theorem slotted_append_fragment {texts : List Bytes} (hlines : ∀ text ∈ texts, IsLine text)
    {fragment : Bytes} (hf : newline ∉ fragment) (front : Bytes) :
    slotted (front ++ (texts.flatten ++ fragment)) front.length =
      (linesAt front.length texts).filter fun line => hasSlot line.text := by
  rw [slotted, linesFrom, List.drop_left, lines_flatten_append hlines]
  by_cases hne : fragment = []
  · rw [hne, lines, List.append_nil]
  · rw [lines_of_notMem hf hne, linesAt_append, List.filter_append, linesAt, linesAt,
      List.filter_cons_of_neg (by simp [hasSlot_of_notMem hf]), List.filter_nil, List.append_nil]

/-- **The effect of a sort on the file**, by a session that may see only a front part of it. -/
theorem applyAll_sortPlan_view {texts : List Bytes} (hlines : ∀ text ∈ texts, IsLine text)
    {fragment : Bytes} (hf : newline ∉ fragment) (front rest : Bytes) :
    Patch.applyAll ((sortPlan (front ++ (texts.flatten ++ fragment)) front.length).map slotPatch)
        (front ++ (texts.flatten ++ rest)) =
      front ++ ((fillSlots texts ((byKey (linesAt front.length texts)).map Line.offset)).flatten
        ++ rest) := by
  rw [sortPlan, physicalRecords, sorted, slotted_append_fragment hlines hf]
  exact applyAll_slotPatches texts ((byKey (linesAt front.length texts)).map Line.offset) front rest

theorem applyAll_sortPlan {texts : List Bytes} (hlines : ∀ text ∈ texts, IsLine text)
    (front : Bytes) :
    Patch.applyAll ((sortPlan (front ++ texts.flatten) front.length).map slotPatch)
        (front ++ texts.flatten) =
      front ++ (fillSlots texts ((byKey (linesAt front.length texts)).map Line.offset)).flatten := by
  simpa using applyAll_sortPlan_view hlines (List.not_mem_nil (a := newline)) front []

end RecordStore.Index
