import Mathlib.Tactic.Common
import RecordStore.Proofs.Fragments
import RecordStore.Proofs.Outcomes

/-!
# Sessions on a file that ends inside a line

A handle that was opened on such a file sees all of it, and its lookups answer the records that a
sort has placed.  So it is for as long as nobody writes, whatever handles look at in between.

* `Handle.Faces`, `Session.Faces` — a handle, and a session, on such a file.

Principal results: `Handle.Faces.find?_placed` and `Handle.Faces.find?_isSome` — what a handle finds;
`Session.Faces.of_looks` — looking changes nothing; `Read.placed` — what a lookup answers;
`Session.Faces.read_answered` — a lookup that takes no lock has an answer.
-/

set_option autoImplicit false

namespace RecordStore

variable {i : Image} {fragment : Bytes}

/-- A handle sees all of a file, and remembers placed records only. -/
structure Handle.Faces (h : Handle) (data : Bytes) : Prop where
  headLen : h.headLen = Header.length
  view : h.view.length = data.length
  cache : ∀ entry, h.cache = some entry → ∃ key, PlacedAt data entry.span key

/-- Whole lines and a fragment behind them. -/
structure Image.Breaks (i : Image) (fragment : Bytes) : Prop where
  ordered : i.Ordered
  newline_notMem : newline ∉ fragment
  ne_nil : fragment ≠ []

namespace Handle.Faces

variable {h : Handle} {key : Bytes} {span : Span}

theorem read_view {data : Bytes} (hf : h.Faces data) : h.view.read data = data := by
  rw [View.read, hf.view, List.take_length]

theorem mapped {data : Bytes} (hf : h.Faces data) (hlen : Header.length ≤ data.length) :
    h.Mapped data :=
  ⟨hf.headLen, hf.view ▸ hlen, Nat.le_of_eq hf.view⟩

theorem rests {before after : Bytes} (hf : h.Faces before) (hrests : Rests before after) :
    h.Faces after where
  headLen := hf.headLen
  view := hf.view.trans hrests.length_eq.symm
  cache entry hentry := (hf.cache entry hentry).imp fun _ => hrests.placedAt

/-- **Whatever a handle finds is placed.** -/
theorem find?_placed (hf : h.Faces (i.bytes ++ fragment)) (hi : i.Breaks fragment)
    (hfound : h.find? (i.bytes ++ fragment) key = some span) :
    PlacedAt (i.bytes ++ fragment) span key := by
  rw [find?_eq_or, hf.headLen, Image.scanTail_fragment hi.newline_notMem hi.ne_nil, Option.or_none,
    Option.or_eq_some_iff] at hfound
  rcases hfound with hcached | ⟨-, hsearch⟩
  · obtain ⟨entry, hentry, hcheck⟩ := Option.bind_eq_some_iff.1 hcached
    dsimp only at hcheck
    split at hcheck
    · next hok =>
      obtain ⟨-, -, -, hkey⟩ := hok
      obtain rfl := Option.some.inj hcheck
      obtain ⟨-, r, hr, hslot, -, hspan⟩ := hf.cache entry hentry
      have htext : entry.span.read (i.bytes ++ fragment) = r.text := by
        rw [← hspan]
        exact read_span_of_mem (mem_liveRecordsFrom_iff.1 hr).1
      rw [htext] at hkey
      exact ⟨r, hr, hslot, hkey, hspan⟩
    · cases hcheck
  · exact hi.ordered.search_fragment hi.newline_notMem hsearch

/-- **A handle finds every key that a placed record has.** -/
theorem find?_isSome (hf : h.Faces (i.bytes ++ fragment)) (hi : i.Breaks fragment)
    (hplaced : PlacedAt (i.bytes ++ fragment) span key) :
    (h.find? (i.bytes ++ fragment) key).isSome = true := by
  rw [find?_eq_or, hf.headLen, Option.isSome_or, Option.isSome_or,
    hi.ordered.search_fragment_isSome hi.newline_notMem hplaced]
  simp

theorem look {h' : Handle} (hf : h.Faces (i.bytes ++ fragment)) (hi : i.Breaks fragment)
    (hl : Handle.Look (i.bytes ++ fragment) h h') : h'.Faces (i.bytes ++ fragment) := by
  cases hl with
  | remap read => exact ⟨hf.headLen, rfl, by rintro entry ⟨⟩⟩
  | remember found =>
    rw [hf.read_view] at found
    refine ⟨hf.headLen, hf.view, ?_⟩
    rintro entry ⟨⟩
    exact ⟨_, hf.find?_placed hi found⟩
  | forget => exact ⟨hf.headLen, hf.view, by rintro entry ⟨⟩⟩

end Handle.Faces

/-! ## Sessions -/

/-- The session works on whole lines and a fragment behind them. -/
structure Session.Faces (s : Session) (i : Image) (fragment : Bytes) : Prop where
  bytes : s.file.bytes = i.bytes ++ fragment
  handle : s.handle.Faces (i.bytes ++ fragment)
  breaks : i.Breaks fragment

namespace Session.Faces

variable {s s' : Session} {key : Bytes} {span : Span} {waited : Option Span}

theorem data_eq (hs : s.Faces i fragment) : s.data = i.bytes ++ fragment := by
  rw [Session.data, hs.bytes, hs.handle.read_view]

theorem mapped (hs : s.Faces i fragment) : s.Mapped := by
  unfold Session.Mapped
  rw [hs.bytes]
  refine hs.handle.mapped ?_
  rw [List.length_append, Image.length_bytes, Nat.add_assoc]
  exact Nat.le_add_right _ _

theorem counterAt? (hs : s.Faces i fragment) (c : Header.Counter) :
    Header.counterAt? s.file.bytes c.offset = some (c.read i.header) := by
  rw [hs.bytes, Image.bytes, List.append_assoc]
  exact Header.counterAt?_encode i.header c _

theorem not_broken (hs : s.Faces i fragment) : ¬ s.Broken := by
  intro hb
  have hseq := hs.counterAt? .appendSeq
  rw [show Header.Counter.appendSeq.offset = Header.appendSeqAt from rfl, hb] at hseq
  cases hseq

/-- **Looking changes nothing.** -/
theorem of_looks (hs : s.Faces i fragment) (h : s.Looks s') : s'.Faces i fragment := by
  refine ⟨h.bytes.trans hs.bytes, ?_, hs.breaks⟩
  have hlooks := h.handle
  rw [hs.bytes] at hlooks
  exact hlooks.preserves (p := fun h' => h'.Faces (i.bytes ++ fragment))
    (fun _ _ hl hf => hf.look hs.breaks hl) hs.handle

theorem found (hs : s.Faces i fragment) (hfound : s.found? key = some span) :
    PlacedAt (i.bytes ++ fragment) span key := by
  rw [Session.found?, hs.data_eq] at hfound
  exact hs.handle.find?_placed hs.breaks hfound

theorem absent (hs : s.Faces i fragment) (hmissing : s.found? key = none) :
    ∀ span, ¬ PlacedAt (i.bytes ++ fragment) span key := by
  intro span hplaced
  have hsome := hs.handle.find?_isSome hs.breaks hplaced
  rw [Session.found?, hs.data_eq] at hmissing
  rw [hmissing] at hsome
  cases hsome

theorem aims (hs : s.Faces i fragment)
    (hwaited : ∀ span, waited = some span → PlacedAt (i.bytes ++ fragment) span key)
    (ha : s.Aims waited key span) : PlacedAt (i.bytes ++ fragment) span key := by
  cases ha with
  | found found => exact hs.found found
  | waited waited => exact hwaited span waited

/-- A placed record is read where it stands. -/
theorem decode (hs : s.Faces i fragment) (hplaced : PlacedAt (i.bytes ++ fragment) span key) :
    ∃ r ∈ liveRecordsFrom Header.length (i.bytes ++ fragment), r.slot ≠ unsorted ∧ r.key = key ∧
      r.span = span ∧ Record.decode s.data span.offset = .ok r := by
  obtain ⟨r, hr, hslot, hkey, rfl⟩ := hplaced
  exact ⟨r, hr, hslot, hkey, rfl, hs.data_eq ▸ decode_of_mem_liveRecords hr⟩

end Session.Faces

/-! ## Lookups -/

/-- What a lookup answers that knows the placed records only. -/
def Part.answerPlaced (part : Part) (data key : Bytes) : Answer :=
  (placedRecord? data key).elim part.missing part.of

section Lookups

variable {s : Session} {key : Bytes} {part : Part} {span : Span}

theorem answerPlaced_of_placedAt {data : Bytes} {r : Record}
    (hdistinct : ((liveRecordsFrom Header.length data).map Record.key).Nodup)
    (hr : r ∈ liveRecordsFrom Header.length data) (hslot : r.slot ≠ unsorted) :
    part.answerPlaced data r.key = part.of r := by
  obtain ⟨r', hr', -⟩ := placedRecord?_of_placedAt hdistinct ⟨r, hr, hslot, rfl, rfl⟩
  obtain ⟨hmem, -, hkey⟩ := mem_of_placedRecord? hr'
  rw [Part.answerPlaced, hr', eq_of_key hdistinct hmem hr hkey]
  rfl

theorem answerPlaced_of_absent {data : Bytes} (h : ∀ span, ¬ PlacedAt data span key) :
    part.answerPlaced data key = part.missing := by
  rw [Part.answerPlaced, placedRecord?_eq_none_iff.2 h]
  rfl

/-- **A lookup answers the placed records.** -/
theorem Read.placed {keepLock : Bool} {waited : Option Span} {s' : Session} {a : Answer}
    (h : Read s key part keepLock waited (.ok (.answered a) s')) (hs : s.Faces i fragment)
    (hdistinct : ((liveRecordsFrom Header.length (i.bytes ++ fragment)).map Record.key).Nodup)
    (hwaited : ∀ span, waited = some span → PlacedAt (i.bytes ++ fragment) span key) :
    a = part.answerPlaced (i.bytes ++ fragment) key := by
  cases h with
  | missed looks missing fresh =>
    exact (answerPlaced_of_absent ((hs.of_looks looks).absent missing)).symm
  | @found _ span r looks aims record =>
    have hs' := hs.of_looks looks
    obtain ⟨r', hr', hslot, rfl, -, hdecode⟩ := hs'.decode (hs'.aims hwaited aims)
    rw [record] at hdecode
    obtain rfl := Except.ok.inj hdecode
    exact (answerPlaced_of_placedAt hdistinct hr' hslot).symm

/-- **A lookup that takes no lock has an answer.** -/
theorem Session.Faces.read_answered (hs : s.Faces i fragment) (key : Bytes) (part : Part) :
    ∃ a s', SessionM.read key part false s = .ok (.answered a) s' := by
  have hread : SessionM.read key part false s =
      (SessionM.locate key .ifMissing >>= SessionM.readFound part) s := rfl
  have hlocated := SessionM.locate_cases hs.mapped key .ifMissing
  generalize hresult : SessionM.locate key .ifMissing s = result at hlocated
  cases hlocated with
  | unreadable broken asked => exact absurd broken hs.not_broken
  | @located h looks fresh trusted =>
    have hs' := hs.of_looks (.withHandle looks)
    rw [hread, SessionM.bind_ok hresult]
    cases hfound : (s.withHandle h).found? key with
    | none => exact ⟨_, _, rfl⟩
    | some span =>
      obtain ⟨r, -, -, -, -, hdecode⟩ := hs'.decode (hs'.found hfound)
      refine ⟨part.of r, s.withHandle h, ?_⟩
      rw [SessionM.readFound_eq_match, hdecode]

end Lookups

end RecordStore
