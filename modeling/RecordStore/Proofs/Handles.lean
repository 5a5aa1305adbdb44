import Mathlib.Tactic.Common
import RecordStore.Proofs.Edits
import RecordStore.Session

/-!
# Handles on a file

However old the mapping and the cache of a handle are, what it finds is a live record of the key.
It can only miss one, and only if lines were appended since it mapped the file; the append sequence
tells whether that is so.

* `Handle.Views` — what a handle sees goes with the file; `Handle.Fits` — so do the appends it saw.
* `Handle.Current` — the handle sees the whole file.

Principal results: `Handle.Views.find?_sound` and `Handle.Views.find?_isSome`, where keys may live
twice; `Handle.Fits.find?_sound` and `Handle.Fits.find?_of_current`, where they do not;
`Handle.Fits.current_of_seenSeq` — an unchanged append sequence means that nothing is missed.
-/

set_option autoImplicit false

namespace RecordStore

/-- What a handle sees goes with the file: its mapping ends where a line ends, and its cache holds
the place of a line. -/
structure Handle.Views (h : Handle) (i : Image) : Prop where
  headLen : h.headLen = Header.length
  view : ∃ seen unseen, i.texts = seen ++ unseen ∧
    h.view.length = Header.length + seen.flatten.length
  cache : ∀ entry, h.cache = some entry → ∃ key, i.Shows entry.span key

/-- What a handle remembers goes with the file: its mapping ends where a line ends, as many lines
were there as it has seen appends at least, and its cache holds the place of a line. -/
structure Handle.Fits (h : Handle) (i : Image) : Prop where
  headLen : h.headLen = Header.length
  view : ∃ seen unseen, i.texts = seen ++ unseen ∧
    h.view.length = Header.length + seen.flatten.length ∧ h.seenSeq.toNat ≤ seen.length
  cache : ∀ entry, h.cache = some entry → ∃ key, i.Shows entry.span key

/-- The handle sees the whole file. -/
def Handle.Current (h : Handle) (i : Image) : Prop := h.view.length = i.bytes.length

namespace Image

/-- What is seen of an image through a mapping of its first lines. -/
theorem read_view {i : Image} {seen unseen : List Bytes} (htexts : i.texts = seen ++ unseen)
    {view : View} (hview : view.length = Header.length + seen.flatten.length) :
    view.read i.bytes = (⟨i.header, seen⟩ : Image).bytes := by
  have hlen : (i.header.encode ++ seen.flatten).length = view.length := by
    rw [List.length_append, Header.length_encode, hview]
  rw [View.read, bytes, bytes, htexts, List.flatten_append, ← List.append_assoc, ← hlen,
    List.take_left]

/-- The first lines of an image are lines of it. -/
theorem mem_lines_of_seen {i : Image} {seen unseen : List Bytes} (htexts : i.texts = seen ++ unseen)
    {line : Line} (h : line ∈ (⟨i.header, seen⟩ : Image).lines) : line ∈ i.lines := by
  rw [lines, htexts, linesAt_append]
  exact List.mem_append_left _ h

/-- A line inside the mapping is seen as it is. -/
theorem read_span_of_seen {i : Image} {line : Line} (h : line ∈ i.lines) {n : Nat}
    (hn : line.offset + line.text.length ≤ n) : line.span.read (i.bytes.take n) = line.text := by
  rw [← read_span h, Span.read, Span.read, List.drop_take, List.take_take]
  congr 1
  simp only [Line.span]
  omega

end Image

namespace Handle

theorem find?_eq_or (h : Handle) (data key : Bytes) : h.find? data key =
    (h.cached? data key).or
      ((Index.search data h.headLen key).or (Index.scanTail data h.headLen key)) := by
  unfold find?
  cases h.cached? data key with
  | some span => rfl
  | none =>
    cases Index.search data h.headLen key with
    | some span => rfl
    | none => rfl

namespace Views

variable {h : Handle} {i : Image}

theorem mono {j : Image} (hv : h.Views i) (hij : i.Extends j) : h.Views j := by
  obtain ⟨seen, unseen, htexts, hview⟩ := hv.view
  obtain ⟨seen', unseen', htexts', hframes⟩ := hij.exists_cut htexts
  refine ⟨hv.headLen, ⟨seen', unseen', htexts', ?_⟩, ?_⟩
  · rw [Image.length_flatten_of_frames hframes, hview]
  · intro entry he
    obtain ⟨key, hs⟩ := hv.cache entry he
    exact ⟨key, hij.shows hs⟩

theorem view_le (hv : h.Views i) : h.view.length ≤ i.bytes.length := by
  obtain ⟨seen, unseen, htexts, hview⟩ := hv.view
  rw [Image.length_bytes, htexts, List.flatten_append, List.length_append]
  omega

/-- A counter of the header, read through the mapping. -/
theorem counterAt? (hv : h.Views i) (c : Header.Counter) :
    Header.counterAt? (h.view.read i.bytes) c.offset = some (c.read i.header) := by
  obtain ⟨seen, unseen, htexts, hview⟩ := hv.view
  rw [Image.read_view htexts hview]
  exact Header.counterAt?_encode _ _ _

/-- **Whatever a handle finds is a live record of the key.** -/
theorem find?_sound (hv : h.Views i) (hi : i.Lined) {key : Bytes} {span : Span}
    (hfound : h.find? (h.view.read i.bytes) key = some span) : ∃ line ∈ i.live,
      keyOf line.text = key ∧ line.span = span ∧
        line.offset + line.text.length ≤ h.view.length := by
  obtain ⟨seen, unseen, htexts, hview⟩ := hv.view
  have hdata := Image.read_view htexts hview
  have hcount : (h.view.read i.bytes).length = h.view.length := by
    rw [hdata, Image.length_bytes, hview]
  rw [find?_eq_or, Option.or_eq_some_iff] at hfound
  rcases hfound with hcached | ⟨-, hlookup⟩
  · -- the cache: the bytes that it points to are checked anew
    obtain ⟨entry, hentry, hcheck⟩ := Option.bind_eq_some_iff.1 hcached
    dsimp only at hcheck
    split at hcheck
    · next hok =>
      obtain ⟨-, hin, hlive, hkey⟩ := hok
      obtain rfl := Option.some.inj hcheck
      obtain ⟨-, line, hl, hspan, -⟩ := hv.cache entry hentry
      rw [hcount, ← hspan] at hin
      have htext : entry.span.read (h.view.read i.bytes) = line.text := by
        rw [← hspan]
        exact Image.read_span_of_seen hl hin
      rw [htext] at hlive hkey
      exact ⟨line, List.mem_filter.2 ⟨hl, by simp [isLiveText, hlive]⟩, hkey, hspan, hin⟩
    · cases hcheck
  · have hlines : ∀ text ∈ seen, IsLine text := fun text ht => hi.line text (by simp [htexts, ht])
    rw [hdata, hv.headLen] at hlookup
    obtain ⟨r, hr, hkey, hspan⟩ := Index.lookup_sound
      (Image.newline_before (i := ⟨i.header, seen⟩) hi.version) hlines
      (by rw [Image.length_bytes]; omega) (Image.drop_bytes _) hlookup
    have hmem := (Image.mem_liveRecordsFrom_bytes (i := ⟨i.header, seen⟩) hlines).1 hr
    obtain ⟨hl, hlive⟩ := List.mem_filter.1 hmem
    have hbound := (Image.bounds_of_mem hl).2
    rw [Image.length_bytes, ← hview] at hbound
    exact ⟨r.toLine, List.mem_filter.2 ⟨Image.mem_lines_of_seen htexts hl, hlive⟩, hkey, hspan,
      hbound⟩

/-- **A handle that sees the whole file finds every key that lives.** -/
theorem find?_isSome (hv : h.Views i) (hi : i.Formed) (hcurrent : h.Current i) {line : Line}
    (hlive : line ∈ i.live) :
    (h.find? (h.view.read i.bytes) (keyOf line.text)).isSome = true := by
  obtain ⟨hl, -⟩ := List.mem_filter.1 hlive
  obtain ⟨r, rfl⟩ : ∃ r : Record, r.toLine = line :=
    ⟨⟨line, hi.wellFormed _ (Image.text_mem hl)⟩, rfl⟩
  have hrec : r ∈ liveRecordsFrom Header.length i.bytes :=
    (Image.mem_liveRecordsFrom_bytes hi.line).2 hlive
  obtain ⟨placed, tail, htexts, hrouted, htail⟩ := hi.routed
  have hsome := Index.lookup_isSome (by decide) (Image.newline_before hi.version)
    (htexts ▸ hi.line) (by rw [Image.length_bytes]; omega)
    (by rw [Image.drop_bytes, htexts]) hrouted (fun t ht => Or.inr (htail t ht)) hrec
  have hdata : h.view.read i.bytes = i.bytes := by
    rw [View.read, hcurrent, List.take_length]
  rw [find?_eq_or, hdata, hv.headLen, Option.isSome_or, Bool.or_eq_true]
  exact Or.inr hsome

end Views

namespace Fits

variable {h : Handle} {i : Image}

theorem views (hfit : h.Fits i) : h.Views i where
  headLen := hfit.headLen
  view := by
    obtain ⟨seen, unseen, htexts, hview, -⟩ := hfit.view
    exact ⟨seen, unseen, htexts, hview⟩
  cache := hfit.cache

theorem mono {j : Image} (hfit : h.Fits i) (hij : i.Extends j) : h.Fits j := by
  obtain ⟨seen, unseen, htexts, hview, hseq⟩ := hfit.view
  obtain ⟨seen', unseen', htexts', hframes⟩ := hij.exists_cut htexts
  have hcount := congrArg List.length hframes
  rw [List.length_map, List.length_map] at hcount
  refine ⟨hfit.headLen, ⟨seen', unseen', htexts', ?_, ?_⟩, (hfit.views.mono hij).cache⟩
  · rw [Image.length_flatten_of_frames hframes, hview]
  · rw [hcount]
    exact hseq

theorem view_le (hfit : h.Fits i) : h.view.length ≤ i.bytes.length := hfit.views.view_le

/-- **If the append sequence is the one last seen, nothing is missed.** -/
theorem current_of_seenSeq (hfit : h.Fits i) (hi : i.Sound)
    (hseq : i.header.appendSeq = h.seenSeq) : h.Current i := by
  obtain ⟨seen, unseen, htexts, hview, hle⟩ := hfit.view
  have hcount := hi.count
  rw [hseq, htexts, List.length_append] at hcount
  have hnone : unseen = [] := List.length_eq_zero_iff.1 (by omega)
  rw [Current, hview, Image.length_bytes, htexts, hnone, List.append_nil]

/-- A counter of the header, read through the mapping. -/
theorem counterAt? (hfit : h.Fits i) (c : Header.Counter) :
    Header.counterAt? (h.view.read i.bytes) c.offset = some (c.read i.header) :=
  hfit.views.counterAt? c

/-- **Whatever a handle finds is the live record of the key.** -/
theorem find?_sound (hfit : h.Fits i) (hi : i.Sound) {key : Bytes} {span : Span}
    (hfound : h.find? (h.view.read i.bytes) key = some span) : ∃ line, i.find? key = some line ∧
      line.span = span ∧ line.offset + line.text.length ≤ h.view.length := by
  obtain ⟨line, hlive, hkey, hspan, hsees⟩ := hfit.views.find?_sound hi.formed.toLined hfound
  exact ⟨line, hi.find?_eq_some_iff.2 ⟨hlive, hkey⟩, hspan, hsees⟩

/-- **A handle that sees the whole file finds the live record of every key.** -/
theorem find?_of_current (hfit : h.Fits i) (hi : i.Sound) (hcurrent : h.Current i) (key : Bytes) :
    h.find? (h.view.read i.bytes) key = (i.find? key).map Line.span := by
  cases hf : h.find? (h.view.read i.bytes) key with
  | some span =>
    obtain ⟨line, hline, hspan, -⟩ := hfit.find?_sound hi hf
    rw [hline, Option.map_some, hspan]
  | none =>
    cases hline : i.find? key with
    | none => rfl
    | some line =>
      exfalso
      obtain ⟨hmem, rfl⟩ := hi.find?_eq_some_iff.1 hline
      have hsome := hfit.views.find?_isSome hi.formed hcurrent hmem
      rw [hf] at hsome
      cases hsome

end Fits

end Handle

end RecordStore
