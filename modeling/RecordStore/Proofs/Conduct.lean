import Mathlib.Tactic.Common
import RecordStore.Proofs.Endurance
import RecordStore.Proofs.Failures

/-!
# How a stretch conducts itself

Whatever a file holds that an opener accepts, and however old a handle's mapping is, each step of a
stretch lets the file endure, leaves the locks of other holders alone, and can say which locks its own
holder may have.  These facts go from step to step along the code, without knowing what the file holds
or how long it is.

* `SessionM.Leads` — what a computation ends in, whether it succeeds or fails.
* `Handle.Steady` — what a handle relies on: the header stands, and what it remembers is a record.
* `Outset` — where a stretch sets out; `Session.Keeps` — what it keeps to from there on.
* `LiveAt` — a live record stands at a place.

Principal results: `Handle.Steady.find?_record`; `locate_leads`, `locateLocking_leads`, `recheck_leads`
— lookups; `appendRecord_leads`, `resort_leads` — what runs under the structural lock.
-/

set_option autoImplicit false

namespace RecordStore

theorem take_wholeLines (s : Bytes) : s.take (wholeLines s).length = wholeLines s :=
  (List.prefix_iff_eq_take.1 ⟨_, wholeLines_append_openLine s⟩).symm

/-! ## Handles -/

theorem Legible.take {bytes : Bytes} (h : Legible bytes) {n : Nat} (hn : Header.length ≤ n) :
    Legible (bytes.take n) := by
  have hget : ∀ {i : Nat}, i < Header.length → (bytes.take n)[i]? = bytes[i]? :=
    fun hi => List.getElem?_take_of_lt (Nat.lt_of_lt_of_le hi hn)
  constructor
  · have hframed := h.framed
    unfold Header.framed at hframed ⊢
    have hmagic : (bytes.take n).take 2 = bytes.take 2 := by
      rw [List.take_take, Nat.min_eq_left (Nat.le_trans (by decide) hn)]
    rwa [hmagic, hget (by decide), hget (by decide), hget (by decide), hget (by decide)]
  · intro i hin
    have hi : i < Header.length := by
      obtain ⟨c, -, hlt⟩ := hin
      exact Nat.lt_of_lt_of_le hlt (by cases c <;> decide)
    rw [hget hi]
    exact h.digits i hin

/-- What a handle relies on: the header can be read and is seen, the file is at least as long as it
was, and what is remembered is a record in view. -/
structure Handle.Steady (h : Handle) (bytes : Bytes) : Prop where
  legible : Legible bytes
  headLen_pos : 0 < h.headLen
  headLen_le : h.headLen ≤ Header.length
  newline_eq : bytes[h.headLen - 1]? = some newline
  sees : Header.length ≤ h.view.length
  inside : h.view.length ≤ bytes.length
  cache : ∀ entry, h.cache = some entry → Bears (h.view.read bytes) entry.span

/-- A record in view stays in view. -/
theorem bears_view {bytes bytes' : Bytes} {view view' : View} {span : Span}
    (h : Bears (view.read bytes) span) (hendures : Endures bytes bytes')
    (hview : view.length ≤ view'.length) : Bears (view'.read bytes') span := by
  obtain ⟨hbears, hle⟩ := bears_take_iff.1 h
  exact bears_take_iff.2 ⟨hbears.endures hendures, Nat.le_trans hle hview⟩

namespace Handle.Steady

variable {h : Handle} {bytes bytes' : Bytes}

theorem endures (hs : h.Steady bytes) (hendures : Endures bytes bytes') : h.Steady bytes' where
  legible := hendures.legible hs.legible
  headLen_pos := hs.headLen_pos
  headLen_le := hs.headLen_le
  newline_eq := by
    have hlt : h.headLen - 1 < Header.length := by
      have := hs.headLen_pos
      have := hs.headLen_le
      omega
    exact hendures.header_eq hlt (hs.legible.not_inCounter hs.newline_eq) hs.newline_eq
  sees := hs.sees
  inside := Nat.le_trans hs.inside hendures.length_le
  cache entry he := bears_view (hs.cache entry he) hendures (Nat.le_refl _)

/-- The handle maps the file again and forgets what it remembers. -/
theorem remap (hs : h.Steady bytes) (seq : UInt32) :
    ({ h with seenSeq := seq, view := h.view.remap bytes, cache := none } : Handle).Steady bytes where
  legible := hs.legible
  headLen_pos := hs.headLen_pos
  headLen_le := hs.headLen_le
  newline_eq := hs.newline_eq
  sees := Nat.le_trans hs.sees hs.inside
  inside := Nat.le_refl _
  cache := by simp

theorem forget (hs : h.Steady bytes) : ({ h with cache := none } : Handle).Steady bytes where
  legible := hs.legible
  headLen_pos := hs.headLen_pos
  headLen_le := hs.headLen_le
  newline_eq := hs.newline_eq
  sees := hs.sees
  inside := hs.inside
  cache := by simp

theorem remember (hs : h.Steady bytes) {span : Span} (hspan : Bears (h.view.read bytes) span) :
    ({ h with cache := some ⟨h.view.generation, span⟩ } : Handle).Steady bytes where
  legible := hs.legible
  headLen_pos := hs.headLen_pos
  headLen_le := hs.headLen_le
  newline_eq := hs.newline_eq
  sees := hs.sees
  inside := hs.inside
  cache := by
    rintro entry ⟨⟩
    exact hspan

theorem legible_view (hs : h.Steady bytes) : Legible (h.view.read bytes) := hs.legible.take hs.sees

theorem newline_view (hs : h.Steady bytes) : (h.view.read bytes)[h.headLen - 1]? = some newline := by
  have := hs.headLen_pos
  have := hs.headLen_le
  have := hs.sees
  rw [View.read, List.getElem?_take_of_lt (by omega)]
  exact hs.newline_eq

/-- The records in view. -/
theorem complete (hs : h.Steady bytes) {r : Record}
    (hr : r ∈ recordsFrom h.headLen (h.view.read bytes)) : Complete (h.view.read bytes) r.toLine :=
  complete_of_record hs.legible_view hs.newline_view hr

end Handle.Steady

/-- A live record stands at a place. -/
def LiveAt (data : Bytes) (span : Span) : Prop :=
  ∃ r : Record, Complete data r.toLine ∧ r.text.head? = some liveFlag ∧ r.span = span

theorem LiveAt.bears {data : Bytes} {span : Span} (h : LiveAt data span) : Bears data span := by
  obtain ⟨r, hr, -, hspan⟩ := h
  exact ⟨r, hr, hspan⟩

/-- A record with a live flag is live. -/
theorem Bears.liveAt {data : Bytes} {span : Span} (h : Bears data span)
    (hlive : data[span.offset]? = some liveFlag) : LiveAt data span := by
  obtain ⟨r, hr, rfl⟩ := h
  refine ⟨r, hr, ?_, rfl⟩
  rw [List.head?_eq_getElem?, ← hr.getElem? hr.isLine.length_pos]
  exact hlive

/-- The walk through the tail answers live records alone, whatever the bytes are. -/
theorem Index.scanTail_sound {data key : Bytes} {headLen : Nat} (hlen : headLen ≤ data.length)
    {span : Span} (h : scanTail data headLen key = some span) :
    ∃ r ∈ recordsFrom headLen data, r.isLive = true ∧ r.key = key ∧ r.span = span := by
  by_cases hends : data.drop headLen = [] ∨ endsLine (data.drop headLen) = true
  · obtain ⟨texts, hlines, hdata⟩ := exists_flatten_of_endsLine hends
    rw [scanTail_eq_latest? hlines hdata hlen] at h
    obtain ⟨r, hmem, hlive, hkey, hspan⟩ := latest?_sound h
    rw [List.mem_reverse] at hmem
    refine ⟨r, mem_recordsFrom_iff.2 ⟨hmem, ?_⟩, hlive, hkey, hspan⟩
    rw [linesFrom, hdata, lines_flatten hlines] at hmem
    obtain ⟨front, back, heq, -⟩ := mem_linesAt_iff.1 hmem
    exact (hlines r.text (by simp [heq])).endsLine
  · -- bytes that end inside a line hide their tail
    rw [not_or] at hends
    have hlast : (data.drop headLen).reverse.head? ≠ some newline := by
      rw [List.head?_reverse]
      simpa [endsLine] using hends.2
    unfold scanTail at h
    cases hback : (data.drop headLen).reverse with
    | nil => exact absurd (List.reverse_eq_nil_iff.1 hback) hends.1
    | cons b back =>
      rw [hback, List.head?_cons, ne_eq, Option.some.injEq] at hlast
      rw [hback, scanBack, if_neg hlast] at h
      cases h

/-- **Whatever a handle finds is a live record of the key.** -/
theorem Handle.Steady.find?_record {h : Handle} {bytes key : Bytes} (hs : h.Steady bytes) {span : Span}
    (hfound : h.find? (h.view.read bytes) key = some span) :
    ∃ r : Record, Complete (h.view.read bytes) r.toLine ∧ r.isLive = true ∧ r.key = key ∧
      r.span = span := by
  have hlen : (h.view.read bytes).length = h.view.length := by
    rw [View.read, List.length_take, Nat.min_eq_left hs.inside]
  rw [find?_eq_or, Option.or_eq_some_iff, Option.or_eq_some_iff] at hfound
  rcases hfound with hcached | ⟨-, hsearch | ⟨-, htail⟩⟩
  · obtain ⟨entry, hentry, hcheck⟩ := Option.bind_eq_some_iff.1 hcached
    dsimp only at hcheck
    split at hcheck
    · next hok =>
      obtain ⟨-, -, hlive, hkey⟩ := hok
      obtain rfl := Option.some.inj hcheck
      obtain ⟨r, hr, hspan⟩ := hs.cache entry hentry
      rw [← hspan, show r.span = r.toLine.span from rfl, read_span_of_mem hr.1] at hlive hkey
      exact ⟨r, hr, beq_iff_eq.2 hlive, hkey, hspan⟩
    · cases hcheck
  · unfold Index.search at hsearch
    split at hsearch
    · cases hsearch
    · obtain ⟨r, hr, hkey, hspan⟩ := Index.searchRegion_sound hs.newline_view hsearch
      obtain ⟨hmem, hlive⟩ := List.mem_filter.1 hr
      exact ⟨r, hs.complete hmem, hlive, hkey, hspan⟩
  · have hle : h.headLen ≤ (h.view.read bytes).length := by
      rw [hlen]
      exact Nat.le_trans hs.headLen_le hs.sees
    obtain ⟨r, hr, hlive, hkey, hspan⟩ := Index.scanTail_sound hle htail
    exact ⟨r, hs.complete hr, hlive, hkey, hspan⟩

theorem Handle.Steady.find?_sound {h : Handle} {bytes key : Bytes} (hs : h.Steady bytes) {span : Span}
    (hfound : h.find? (h.view.read bytes) key = some span) : LiveAt (h.view.read bytes) span := by
  obtain ⟨r, hr, hlive, -, hspan⟩ := hs.find?_record hfound
  exact ⟨r, hr, beq_iff_eq.1 hlive, hspan⟩

/-! ## Stretches -/

/-- Where a stretch sets out: who runs it, on which bytes, and what the others have locked. -/
structure Outset where
  holder : HolderId
  bytes : Bytes
  others : List ByteLock

/-- Another holder is in the way of an exclusive lock. -/
def Outset.Blocks (o : Outset) (offset : Nat) : Prop :=
  (⟨o.others⟩ : LockTable).blocks o.holder offset .exclusive = true

/-- What a stretch keeps to: the file endures, its handle stays steady, the others keep their locks, and
beyond its shared presence it has at most the locks at `owned`.  The records at `seen` stay in view. -/
structure Session.Keeps (s : Session) (o : Outset) (owned : List Nat) (seen : List Span) : Prop where
  holder : s.holder = o.holder
  steady : s.handle.Steady s.file.bytes
  endures : Endures o.bytes s.file.bytes
  others : s.file.locks.others o.holder = o.others
  own : s.file.locks.Within o.holder owned
  bears : ∀ span ∈ seen, Bears s.data span

namespace Session.Keeps

variable {s : Session} {o : Outset} {owned owned' : List Nat} {seen seen' : List Span}

theorem mono (h : s.Keeps o owned seen) (hown : owned ⊆ owned') (hseen : seen' ⊆ seen) :
    s.Keeps o owned' seen' where
  holder := h.holder
  steady := h.steady
  endures := h.endures
  others := h.others
  own := h.own.mono hown
  bears span hs := h.bears span (hseen hs)

theorem see (h : s.Keeps o owned seen) {span : Span} (hspan : Bears s.data span) :
    s.Keeps o owned (span :: seen) :=
  { h with bears := List.forall_mem_cons.2 ⟨hspan, h.bears⟩ }

/-- The holder has taken a lock. -/
theorem hold (h : s.Keeps o owned seen) (offset : Nat) :
    (s.hold offset).Keeps o (offset :: owned) seen where
  holder := h.holder
  steady := h.steady
  endures := h.endures
  others := by
    rw [← h.holder, Session.hold, LockTable.others_set, h.holder]
    exact h.others
  own := by
    rw [Session.hold, h.holder]
    exact h.own.set offset .exclusive
  bears := h.bears

/-- The holder has given a lock up. -/
theorem free (h : s.Keeps o owned seen) {offset : Nat} (hown : owned ⊆ offset :: owned') :
    (s.free offset).Keeps o owned' seen where
  holder := h.holder
  steady := h.steady
  endures := h.endures
  others := by
    show (s.file.locks.clear s.holder offset).others o.holder = o.others
    rw [← h.holder, LockTable.others_clear, h.holder]
    exact h.others
  own := by
    rw [Session.free, SharedFile.unlock, h.holder]
    exact h.own.clear hown
  bears := h.bears

/-- Whether a lock is refused depends on what the others have. -/
theorem blocks_iff (h : s.Keeps o owned seen) (offset : Nat) :
    s.file.locks.blocks s.holder offset .exclusive = true ↔ o.Blocks offset := by
  rw [Outset.Blocks, ← h.others, LockTable.blocks_others, h.holder]

/-- Another handle on the same bytes. -/
theorem withHandle (h : s.Keeps o owned seen) {handle : Handle} (hsteady : handle.Steady s.file.bytes)
    (hview : s.handle.view.length ≤ handle.view.length) : (s.withHandle handle).Keeps o owned seen where
  holder := h.holder
  steady := hsteady
  endures := h.endures
  others := h.others
  own := h.own
  bears span hs := bears_view (h.bears span hs) (Endures.refl _) hview

/-- **A write that lets the file endure.** -/
theorem write (h : s.Keeps o owned seen) {patch : Patch}
    (hendures : Endures s.file.bytes (patch.apply s.file.bytes)) :
    (s.write patch).Keeps o owned seen := by
  rw [← Session.write_bytes] at hendures
  exact
    { holder := h.holder
      steady := h.steady.endures hendures
      endures := h.endures.trans hendures
      others := by
        rw [Session.write_locks]
        exact h.others
      own := by
        rw [Session.write_locks]
        exact h.own
      bears := fun span hs => bears_view (h.bears span hs) hendures (Nat.le_refl _) }

theorem writeAll_of_endures (h : s.Keeps o owned seen) {patches : List Patch}
    (hendures : Endures s.file.bytes (Patch.applyAll patches s.file.bytes)) :
    (s.writeAll patches).Keeps o owned seen := by
  rw [← Session.writeAll_bytes] at hendures
  obtain ⟨hlocks, hhandle, hholder⟩ := s.writeAll_frame patches
  exact
    { holder := hholder.trans h.holder
      steady := by
        rw [hhandle]
        exact h.steady.endures hendures
      endures := h.endures.trans hendures
      others := by
        rw [hlocks]
        exact h.others
      own := by
        rw [hlocks]
        exact h.own
      bears := fun span hs => by
        rw [Session.data, hhandle]
        exact bears_view (h.bears span hs) hendures (Nat.le_refl _) }

theorem writeAll (h : s.Keeps o owned seen) {patches : List Patch}
    (hmild : ∀ patch ∈ patches, patch.Mild s.file.bytes) : (s.writeAll patches).Keeps o owned seen :=
  h.writeAll_of_endures (endures_applyAll h.steady.legible.length_le hmild)

theorem markModified (h : s.Keeps o owned seen) : s.markModified.Keeps o owned seen :=
  h.withHandle
    ⟨h.steady.legible, h.steady.headLen_pos, h.steady.headLen_le, h.steady.newline_eq, h.steady.sees,
      h.steady.inside, h.steady.cache⟩ (Nat.le_refl _)

theorem forget (h : s.Keeps o owned seen) : s.forget.Keeps o owned seen :=
  h.withHandle h.steady.forget (Nat.le_refl _)

/-- What is in view stands in the file. -/
theorem bears_file {span : Span} (h : Bears s.data span) : Bears s.file.bytes span :=
  (bears_take_iff.1 h).1

/-- **A sort** sets counters, and the slots of lines that have one. -/
theorem sort (h : s.Keeps o owned seen) : s.sort.Keeps o owned seen := by
  refine (h.writeAll ?_).markModified
  intro patch hp
  rcases List.mem_append.1 hp with hp | hp
  · obtain ⟨⟨place, target⟩, hplan, rfl⟩ := List.mem_map.1 hp
    obtain ⟨line, hline, rfl⟩ := List.mem_map.1 (List.of_mem_zip hplan).1
    obtain ⟨hmem, hslot⟩ := List.mem_filter.1 hline
    rcases complete_of_slotted h.steady.legible_view h.steady.newline_view hmem hslot with
      hcomplete | hseq
    · exact .slot (complete_take_iff.1 hcomplete).1 hslot _
    · dsimp only
      rw [hseq]
      exact .counter .appendSeq _
  · simp only [List.mem_cons, List.not_mem_nil, or_false] at hp
    rcases hp with rfl | rfl
    · exact .counter .sinceSort _
    · exact .counter .modified _

/-- **Closing the last line** touches no complete one. -/
theorem sealTail (h : s.Keeps o owned seen) : s.sealed.Keeps o owned seen := by
  unfold Session.sealed
  split
  · exact h
  · have hlen := SessionM.length_sealPatches s.file.bytes s.handle.headLen
    have hwhole := length_wholeLines_le s.file.bytes
    have hkept : (Patch.applyAll (sealPatches s.file.bytes s.handle.headLen) s.file.bytes).take
        (wholeLines s.file.bytes).length = wholeLines s.file.bytes := by
      rw [Patch.take_applyAll ?_ hwhole, take_wholeLines]
      intro patch hp
      unfold sealPatches at hp
      rcases List.mem_cons.1 hp with rfl | hp
      · exact hwhole
      · split at hp
        · obtain rfl := List.mem_singleton.1 hp
          exact Nat.le_refl _
        · cases hp
    have hwritten := h.writeAll_of_endures
      (endures_append h.steady.legible.newline_eq (by omega) hkept)
    exact hwritten.withHandle (hwritten.steady.remap _) hwritten.steady.inside

/-- **A line at the end** touches no complete one. -/
theorem writeLine (h : s.Keeps o owned seen) (line : Bytes) :
    (s.writeLine line).Keeps o owned seen := by
  have hwhole := length_wholeLines_le s.file.bytes
  refine h.write (endures_append h.steady.legible.newline_eq (Patch.length_le_length_apply _ _) ?_)
  rw [Patch.take_apply hwhole hwhole, take_wholeLines]

/-- **A publication** sets counters, and a record dies. -/
theorem publish (h : s.Keeps o owned seen) (seq count : UInt32) {old : Option Span}
    (hold : ∀ span, old = some span → span ∈ seen) : (s.publish seq count old).Keeps o owned seen := by
  refine (h.writeAll ?_).markModified
  intro patch hp
  rcases List.mem_append.1 hp with hp | hp
  · simp only [List.mem_cons, List.not_mem_nil, or_false] at hp
    rcases hp with rfl | rfl
    · exact .counter .appendSeq _
    · exact .counter .sinceSort _
  · rw [Option.mem_toList, Option.map_eq_some_iff] at hp
    obtain ⟨span, hspan, rfl⟩ := hp
    exact .death (bears_file (h.bears span (hold span hspan)))

end Session.Keeps

namespace SessionM

/-- From this session a computation ends in one with `post`, or it fails in one with `fail`. -/
def Leads {α : Type} (act : SessionM α) (s : Session) (post : α → Session → Prop)
    (fail : Session → Prop) : Prop :=
  match act s with
  | .ok a s' => post a s'
  | .error _ s' => fail s'

namespace Leads

variable {α β : Type} {act : SessionM α} {s : Session} {post post' : α → Session → Prop}
  {fail fail' : Session → Prop}

theorem of_ok {a : α} {s' : Session} (h : act s = .ok a s') (hpost : post a s') :
    Leads act s post fail := by
  unfold Leads
  rw [h]
  exact hpost

theorem of_error {e : Error} {s' : Session} (h : act s = .error e s') (hfail : fail s') :
    Leads act s post fail := by
  unfold Leads
  rw [h]
  exact hfail

theorem mono (h : Leads act s post fail) (hpost : ∀ a s', post a s' → post' a s')
    (hfail : ∀ s', fail s' → fail' s') : Leads act s post' fail' := by
  unfold Leads at h ⊢
  cases hact : act s with
  | ok a s' =>
    rw [hact] at h
    exact hpost a s' h
  | error e s' =>
    rw [hact] at h
    exact hfail s' h

/-- **One step after the other.** -/
theorem bind {next : α → SessionM β} {last : β → Session → Prop} (h : Leads act s post fail)
    (hnext : ∀ a s', post a s' → Leads (next a) s' last fail) : Leads (act >>= next) s last fail := by
  unfold Leads at h
  cases hact : act s with
  | ok a s' =>
    rw [hact] at h
    unfold Leads
    rw [bind_ok hact]
    exact hnext a s' h
  | error e s' =>
    rw [hact] at h
    exact of_error (bind_error hact) h

theorem get_bind {next : Session → SessionM α} (h : Leads (next s) s post fail) :
    Leads (get >>= next) s post fail := h

theorem modify_bind {f : Session → Session} {next : PUnit → SessionM α}
    (h : Leads (next ⟨⟩) (f s) post fail) : Leads (modify f >>= next) s post fail := h

theorem attempt (h : Leads act s post fail) : Leads (attempt act) s
    (fun result s' => match result with
      | .ok a => post a s'
      | .error _ => fail s') fail' := by
  unfold Leads at h
  cases hact : act s with
  | ok a s' =>
    rw [hact] at h
    exact of_ok (attempt_ok hact) h
  | error e s' =>
    rw [hact] at h
    exact of_ok (attempt_error hact) h

end Leads

section Steps

variable {s : Session} {o : Outset} {owned owned' : List Nat} {seen : List Span}

/-! ### Locks -/

/-- A lock is granted, or somebody is in the way, or it cannot be taken at all. -/
theorem tryLock_leads (h : s.Keeps o owned seen) (offset : Nat) :
    Leads (tryLock offset .exclusive) s
      (fun granted s' => lockFault? offset = none ∧
        ((granted = true ∧ s' = s.hold offset) ∨ (granted = false ∧ s' = s ∧ o.Blocks offset)))
      (fun s' => s' = s ∧ lockFault? offset ≠ none) := by
  cases hfault : lockFault? offset with
  | some fault =>
    refine .of_error (e := .lock fault) ?_ ⟨rfl, by simp⟩
    unfold tryLock
    rw [hfault]
    rfl
  | none =>
    have htry := tryLock_eq s hfault
    split at htry
    · next hblocks => exact .of_ok htry ⟨rfl, Or.inr ⟨rfl, rfl, (h.blocks_iff offset).1 hblocks⟩⟩
    · exact .of_ok htry ⟨rfl, Or.inl ⟨rfl, rfl⟩⟩

/-- The lock of a record is granted, waited for or refused. -/
theorem acquireRecord_leads (h : s.Keeps o owned seen) (offset : Nat) :
    Leads (acquireRecord offset) s
      (fun granted s' => lockFault? offset = none ∧
        ((granted = true ∧ s' = s.hold offset) ∨ (granted = false ∧ s' = s ∧ o.Blocks offset)))
      (fun s' => s' = s) := by
  unfold acquireRecord
  refine ((tryLock_leads h offset).mono (fun _ _ => id) (fun _ => And.left)).bind ?_
  rintro granted s' ⟨hfault, ⟨rfl, rfl⟩ | ⟨rfl, rfl, hblocks⟩⟩
  · exact .of_ok rfl ⟨hfault, Or.inl ⟨rfl, rfl⟩⟩
  · refine .get_bind ?_
    split
    · exact .of_error rfl rfl
    · exact .of_ok rfl ⟨hfault, Or.inr ⟨rfl, rfl, hblocks⟩⟩

/-- A lock that was taken can be given up. -/
theorem unlock_leads (h : s.Keeps o owned seen) {offset : Nat} (hfault : lockFault? offset = none)
    (hown : owned ⊆ offset :: owned') :
    Leads (unlock offset) s (fun _ s' => s'.Keeps o owned' seen) (fun _ => False) :=
  .of_ok (unlock_eq s hfault) (h.free hown)

/-- Giving up whatever lock gains none. -/
theorem unlock_keeps (h : s.Keeps o owned seen) (offset : Nat) :
    Leads (unlock offset) s (fun _ s' => s'.Keeps o owned seen) (fun s' => s'.Keeps o owned seen) := by
  cases hfault : lockFault? offset with
  | some fault =>
    refine .of_error (e := .lock fault) ?_ h
    unfold unlock
    rw [hfault]
    rfl
  | none => exact .of_ok (unlock_eq s hfault) (h.free (List.subset_cons_self ..))

/-! ### Lookups -/

theorem counter_leads (s : Session) (offset : Nat) :
    Leads (counter offset) s (fun _ s' => s' = s) (fun s' => s' = s) := by
  unfold Leads
  rw [counter_eq_match]
  cases Header.counterAt? s.data offset <;> rfl

theorem refresh_leads (h : s.Keeps o owned seen) :
    Leads refresh s (fun _ s' => s'.Keeps o owned seen) (fun s' => s'.Keeps o owned seen) := by
  unfold refresh
  refine ((counter_leads s Header.appendSeqAt).mono (fun _ _ => id) ?_).bind ?_
  · rintro s' rfl
    exact h
  · rintro seq s' rfl
    refine .get_bind ?_
    split
    · exact .of_ok rfl h
    · exact .modify_bind (.of_ok rfl (h.withHandle (h.steady.remap seq) h.steady.inside))

theorem find_leads (h : s.Keeps o owned seen) (key : Bytes) : Leads (find key) s
    (fun found s' => s'.Keeps o owned seen ∧ ∀ span, found = some span → LiveAt s'.data span)
    (fun s' => s'.Keeps o owned seen) := by
  unfold find
  refine .get_bind ?_
  cases hf : s.handle.find? s.data key with
  | none => exact .of_ok rfl ⟨h, by rintro span ⟨⟩⟩
  | some span =>
    have hlive := h.steady.find?_sound hf
    refine .of_ok rfl ⟨h.withHandle (h.steady.remember hlive.bears) (Nat.le_refl _), ?_⟩
    rintro _ ⟨⟩
    exact hlive

/-- **A lookup** finds live records alone. -/
theorem locate_leads (h : s.Keeps o owned seen) (key : Bytes) (freshness : Freshness) :
    Leads (locate key freshness) s
      (fun found s' => s'.Keeps o owned seen ∧ ∀ span, found = some span → LiveAt s'.data span)
      (fun s' => s'.Keeps o owned seen) := by
  unfold locate
  refine .get_bind ?_
  dsimp only
  split
  · exact (refresh_leads h).bind fun _ s' h' => find_leads h' key
  · exact find_leads h key

/-- What is known after a lookup that locks. -/
def Locked.Keeps (o : Outset) (owned : List Nat) (seen : List Span) (s : Session) : Locked → Prop
  | .absent => s.Keeps o owned seen
  | .granted span => s.Keeps o (span.offset :: owned) seen ∧ LiveAt s.data span ∧
      lockFault? span.offset = none
  | .busy span => s.Keeps o owned seen ∧ Bears s.data span ∧ o.Blocks span.offset

/-- **A lookup that locks** finds live records alone, and takes no lock but theirs. -/
theorem locateLocking_leads (h : s.Keeps o owned seen) (key : Bytes) (freshness : Freshness) :
    Leads (locateLocking key freshness) s (fun locked s' => locked.Keeps o owned seen s')
      (fun s' => s'.Keeps o owned seen) := by
  unfold locateLocking
  refine (locate_leads h key freshness).bind ?_
  rintro (_ | span) s₁ ⟨h₁, hfound⟩
  · exact .of_ok rfl h₁
  · have hlive := hfound span rfl
    refine ((acquireRecord_leads h₁ span.offset).mono (fun _ _ => id) ?_).bind ?_
    · rintro s' rfl
      exact h₁
    · rintro granted s₂ ⟨hfault, ⟨rfl, rfl⟩ | ⟨rfl, rfl, hblocks⟩⟩
      · exact .of_ok rfl ⟨h₁.hold span.offset, hlive, hfault⟩
      · exact .of_ok rfl ⟨h₁, hlive.bears, hblocks⟩

/-- **A lock granted after a wait** is kept for a record that is still live. -/
theorem recheck_leads {span : Span} (h : s.Keeps o (span.offset :: owned) seen) (key : Bytes)
    (hspan : Bears s.data span) (hfault : lockFault? span.offset = none) :
    Leads (recheck key span) s (fun locked s' => locked.Keeps o owned seen s')
      (fun s' => s'.Keeps o owned seen) := by
  unfold recheck
  refine .get_bind ?_
  split
  · next hlive => exact .of_ok rfl ⟨h, hspan.liveAt hlive, hfault⟩
  · refine ((unlock_leads h hfault (List.Subset.refl _)).mono (fun _ _ => id) (by simp)).bind ?_
    intro _ s' h'
    exact .modify_bind (locateLocking_leads h'.forget key .always)

/-- A live record is read. -/
theorem recordAt_leads {span : Span} (hlive : LiveAt s.data span) : Leads (recordAt span) s
    (fun r s' => s' = s ∧ Complete s.data r.toLine ∧ r.text.head? = some liveFlag ∧ r.span = span)
    (fun _ => False) := by
  obtain ⟨r, hr, hflag, rfl⟩ := hlive
  have hread := recordAt_eq_match s r.span
  have hdec : Record.decode s.data r.span.offset = .ok r := decode_of_complete hr
  rw [hdec] at hread
  exact .of_ok hread ⟨rfl, hr, hflag, rfl⟩

/-- **A write to a record that is there** ends in place, at once or behind a patch of the value, or it
goes on to append. -/
theorem update_leads {request : WriteRequest} {span : Span} (hlive : LiveAt s.data span)
    (hreq : requestFault? request = none) {post : Progress → Session → Prop} {fail : Session → Prop}
    (hend : Leads (finishInPlace request span) s post fail)
    (hpatch : ∀ patch : Patch, Header.length ≤ patch.offset →
      Endures s.file.bytes (patch.apply s.file.bytes) →
      Leads (finishInPlace request span) (s.write patch).markModified post fail)
    (happend : Leads (append request (some span.offset)) s post fail) :
    Leads (update request span) s post fail := by
  unfold update
  cases hfield : request.field with
  | none => exact hend
  | some field =>
    dsimp only
    refine ((recordAt_leads hlive).mono (fun _ _ => id) (by simp)).bind ?_
    rintro r s' ⟨rfl, hr, hflag, rfl⟩
    cases hplace : r.fieldSpan? field.name with
    | none => exact happend
    | some place =>
      dsimp only
      split
      · next hlen =>
        have hfit := (WriteRequest.fits_of_requestFault? hreq).2 field hfield
        have hfits := (Record.apply_fieldSpan? hr.isLine hfit hplace hlen).1
        have hbehind : Header.length ≤ r.offset + place.offset :=
          Nat.le_trans hr.header_le (Nat.le_add_right _ _)
        exact .modify_bind (hpatch _ hbehind (endures_patch (complete_take_iff.1 hr).1 hfits
          (Ages.value hr.isLine hflag hfit hplace hlen)))
      · exact happend

/-! ### Under the structural lock -/

theorem lineToAppend_leads (s : Session) (key : Bytes) (field : Option Field) (old : Option Span) :
    Leads (lineToAppend key field old) s (fun _ s' => s' = s) (fun s' => s' = s) := by
  rcases lineToAppend_drafted s key field old with ⟨line, heq, -⟩ | ⟨span, -, -, heq⟩ | ⟨e, heq, -⟩
  · exact .of_ok heq rfl
  · exact .of_ok heq rfl
  · exact .of_error heq rfl

/-- A line is written, and published if the append sequence can be read. -/
theorem commitLine_leads (h : s.Keeps o owned seen) (line : Bytes) (count : UInt32)
    {old : Option Span} (hold : ∀ span, old = some span → span ∈ seen) :
    Leads (commitLine s.file.bytes.length line count old) s (fun _ s' => s'.Keeps o owned seen)
      (fun s' => s'.Keeps o owned seen) := by
  have hwritten := h.writeLine line
  unfold commitLine
  refine .modify_bind (((counter_leads _ Header.appendSeqAt).mono (fun _ _ => id) ?_).bind ?_)
  · rintro s' rfl
    exact hwritten
  · rintro seq s' rfl
    exact .of_ok rfl (hwritten.publish seq count hold)

/-- **An append** takes no lock but that of its new line. -/
theorem appendRecord_leads (h : s.Keeps o owned seen) (key : Bytes) (field : Option Field) :
    Leads (appendRecord key field) s
      (fun appended s' => s'.Keeps o (appended.toList ++ owned) seen ∧
        ∀ offset, appended = some offset → lockFault? offset = none)
      (fun s' => s'.Keeps o owned seen) := by
  unfold appendRecord
  refine ((counter_leads s Header.sinceSortAt).mono (fun _ _ => id) ?_).bind ?_
  · rintro s' rfl
    exact h
  rintro count s' rfl
  refine .get_bind ?_
  dsimp only
  refine (locate_leads h key _).bind ?_
  rintro old s₁ ⟨h₁, hold⟩
  -- the place of the old record is watched from here on
  have hseen : s₁.Keeps o owned (old.toList ++ seen) := by
    cases old with
    | none => exact h₁
    | some span => exact h₁.see (hold span rfl).bears
  have hforget : ∀ {s : Session}, s.Keeps o owned (old.toList ++ seen) → s.Keeps o owned seen :=
    fun hs => hs.mono (List.Subset.refl _) (List.subset_append_right _ _)
  unfold Leads
  rw [ite_modify_bind]
  obtain ⟨s₂, hs₂, h₂⟩ : ∃ s₂, (if s'.handle.config.resortLimit < count then s₁.sort else s₁) = s₂ ∧
      s₂.Keeps o owned (old.toList ++ seen) := by
    refine ⟨_, rfl, ?_⟩
    split
    · exact hseen.sort
    · exact hseen
  rw [hs₂]
  refine ((lineToAppend_leads s₂ key field old).mono (fun _ _ => id) ?_).bind ?_
  · rintro s' rfl
    exact hforget h₂
  rintro (_ | line) s' rfl
  · exact .of_ok rfl ⟨hforget h₂, by rintro offset ⟨⟩⟩
  -- the line goes to the end of the file, which now ends in a newline
  have hsealed : Leads sealTail s' (fun offset s₃ => offset = s₃.file.bytes.length ∧
      s₃.Keeps o owned (old.toList ++ seen)) (fun s' => s'.Keeps o owned seen) :=
    .of_ok (sealTail_sealed s') ⟨rfl, h₂.sealTail⟩
  refine hsealed.bind ?_
  rintro _ s₃ ⟨rfl, h₃⟩
  refine ((tryLock_leads h₃ _).mono (fun _ _ => id) ?_).bind ?_
  · rintro s' ⟨rfl, -⟩
    exact hforget h₃
  rintro granted s₄ ⟨hfault, hgranted⟩
  have h₄ : s₄.Keeps o (s₃.file.bytes.length :: owned) (old.toList ++ seen) := by
    rcases hgranted with ⟨-, rfl⟩ | ⟨-, rfl, -⟩
    · exact h₃.hold _
    · exact h₃.mono (List.subset_cons_self ..) (List.Subset.refl _)
  have hlen : s₃.file.bytes.length = s₄.file.bytes.length := by
    rcases hgranted with ⟨-, rfl⟩ | ⟨-, rfl, -⟩ <;> rfl
  rw [hlen] at h₄ hfault ⊢
  have hwatched : ∀ span, old = some span → span ∈ old.toList ++ seen := by
    rintro span rfl
    exact List.mem_append_left _ (List.mem_singleton_self span)
  refine (Leads.attempt (commitLine_leads h₄ line _ hwatched)).bind ?_
  rintro (e | _) s₅ h₅
  · refine ((unlock_leads h₅ hfault (List.Subset.refl _)).mono (fun _ _ => id) (by simp)).bind ?_
    intro _ s₆ h₆
    exact .of_error rfl (hforget h₆)
  · refine .of_ok rfl ⟨h₅.mono (List.Subset.refl _) (List.subset_append_right _ _), ?_⟩
    rintro offset ⟨⟩
    exact hfault

theorem resort_leads (h : s.Keeps o owned seen) :
    Leads resort s (fun _ s' => s'.Keeps o owned seen) (fun s' => s'.Keeps o owned seen) :=
  (refresh_leads h).bind fun _ _ h' => .of_ok rfl h'.sort

end Steps

end SessionM

end RecordStore
