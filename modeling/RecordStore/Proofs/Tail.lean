import Mathlib.Data.List.Induction
import Mathlib.Tactic.Common
import RecordStore.Index.Tail
import RecordStore.Proofs.Search

/-!
# What the tail scan finds

Over complete lines the backward walk goes from line to line, the last one first, up to the first
record that a sort has placed.

* `latest?` — the same walk over the lines themselves.

Principal results: `scanTail_eq_latest?`; `latest?_sound`; `latest?_isSome` — a live record is found
if no line behind it has a slot.
-/

set_option autoImplicit false

namespace RecordStore.Index

variable {key : Bytes}

/-- The first live record with `key` among these lines, up to the first one that a sort placed. -/
def latest? (key : Bytes) : List Line → Option Span
  | [] => none
  | line :: more =>
    match Record.ofLine? line with
    | some record =>
      if record.slot ≠ unsorted then none
      else if record.isLive ∧ record.key = key then some record.span
      else latest? key more
    | none => latest? key more

/-- The line in front of a newline is cut off at the newline before it. -/
theorem lastLine_append {body front : Bytes} (hb : newline ∉ body)
    (hf : front = [] ∨ endsLine front = true) :
    lastLine (body.reverse ++ front.reverse) = body ++ [newline] ∧
      (body.reverse ++ front.reverse).dropWhile (· != newline) = front.reverse := by
  have hbody : ∀ b ∈ body.reverse, (b != newline) = true := fun b hm =>
    bne_iff_ne.2 fun e => hb (e ▸ List.mem_reverse.1 hm)
  have hstop : front.reverse = [] ∨ ∃ rest, front.reverse = newline :: rest := by
    rcases hf with rfl | hf
    · exact Or.inl rfl
    · right
      rw [endsLine, ← List.head?_reverse, beq_iff_eq] at hf
      exact List.head?_eq_some_iff.1 hf
  rw [lastLine, List.takeWhile_append_of_pos hbody, List.dropWhile_append_of_pos hbody]
  rcases hstop with hnil | ⟨rest, hcons⟩
  · simp [hnil]
  · simp [hcons]

/-- Over complete lines, the walk over bytes is the walk over lines. -/
theorem scanBack_flatten {texts : List Bytes} (hlines : ∀ text ∈ texts, IsLine text) (start : Nat) :
    scanBack key (start + texts.flatten.length) texts.flatten.reverse =
      latest? key (linesAt start texts).reverse := by
  induction texts using List.reverseRecOn with
  | nil =>
    unfold scanBack
    rfl
  | append_singleton init text ih =>
    have hinit : ∀ t ∈ init, IsLine t := fun t ht => hlines t (List.mem_append_left _ ht)
    have hfront : init.flatten = [] ∨ endsLine init.flatten = true := by
      by_cases hne : init = []
      · exact Or.inl (by rw [hne, List.flatten_nil])
      · exact Or.inr (endsLine_flatten hinit hne)
    obtain ⟨body, hbody, rfl⟩ := hlines text (by simp)
    obtain ⟨hlast, hdrop⟩ := lastLine_append hbody hfront
    have hbytes : (init ++ [body ++ [newline]]).flatten.reverse
        = newline :: (body.reverse ++ init.flatten.reverse) := by simp
    have hstop : start + (init ++ [body ++ [newline]]).flatten.length
        - (body ++ [newline]).length = start + init.flatten.length := by
      rw [List.flatten_append, List.flatten_singleton, List.length_append]
      omega
    rw [hbytes, scanBack]
    simp only [if_true, hlast, hdrop, hstop, ih hinit]
    rw [linesAt_append, List.reverse_append]
    rfl

theorem scanTail_eq_latest? {data : Bytes} {headLen : Nat} {texts : List Bytes}
    (hlines : ∀ text ∈ texts, IsLine text) (hdata : data.drop headLen = texts.flatten)
    (hlen : headLen ≤ data.length) :
    scanTail data headLen key = latest? key (linesFrom headLen data).reverse := by
  have hcount := congrArg List.length hdata
  rw [List.length_drop] at hcount
  have hstop : data.length = headLen + texts.flatten.length := by omega
  rw [scanTail, linesFrom, hdata, lines_flatten hlines, hstop, scanBack_flatten hlines]

/-- The walk answers a place that it has come by. -/
theorem offset_le_of_scanBack {stop : Nat} {back : Bytes} {span : Span}
    (h : scanBack key stop back = some span) : span.offset ≤ stop := by
  induction hn : back.length using Nat.strongRecOn generalizing stop back with
  | ind n ih =>
    subst hn
    have hshort : ∀ b rest, back = b :: rest →
        (rest.dropWhile (· != newline)).length < back.length := by
      rintro b rest rfl
      have := (List.dropWhile_sublist (l := rest) (· != newline)).length_le
      simp only [List.length_cons]
      omega
    unfold scanBack at h
    split at h
    · cases h
    · next b rest =>
      split at h
      · dsimp only at h
        split at h
        · next record hrec =>
          obtain ⟨-, hline⟩ := Record.ofLine?_eq_some_iff.1 hrec
          split at h
          · cases h
          · split at h
            · cases h
              rw [Record.span, hline]
              exact Nat.sub_le ..
            · exact Nat.le_trans (ih _ (hshort b rest rfl) h rfl) (Nat.sub_le ..)
        · exact Nat.le_trans (ih _ (hshort b rest rfl) h rfl) (Nat.sub_le ..)
      · cases h

/-- The walk answers only live records with the key. -/
theorem latest?_sound {lines : List Line} {span : Span} (h : latest? key lines = some span) :
    ∃ r : Record, r.toLine ∈ lines ∧ r.isLive = true ∧ r.key = key ∧ r.span = span := by
  induction lines with
  | nil => cases h
  | cons line more ih =>
    have htail : latest? key more = some span →
        ∃ r : Record, r.toLine ∈ line :: more ∧ r.isLive = true ∧ r.key = key ∧ r.span = span := by
      intro h
      obtain ⟨r, hmem, hr⟩ := ih h
      exact ⟨r, List.mem_cons_of_mem _ hmem, hr⟩
    unfold latest? at h
    split at h
    · next record hrec =>
      split at h
      · cases h
      · split at h
        · next hfound =>
          cases h
          obtain ⟨-, rfl⟩ := Record.ofLine?_eq_some_iff.1 hrec
          exact ⟨record, List.mem_cons_self .., hfound.1, hfound.2, rfl⟩
        · exact htail h
    · exact htail h

/-- **A live record is found** if no record that a sort placed comes before it. -/
theorem latest?_isSome {front back : List Line} {r : Record}
    (hfront : ∀ line ∈ front, ∀ f, Record.ofLine? line = some f → f.slot = unsorted)
    (hslot : r.slot = unsorted) (hlive : r.isLive = true) :
    (latest? r.key (front ++ r.toLine :: back)).isSome = true := by
  induction front with
  | nil =>
    have hr : Record.ofLine? r.toLine = some r := Record.ofLine?_eq_some_iff.2 ⟨r.wellFormed, rfl⟩
    rw [List.nil_append, latest?, hr]
    simp [hslot, hlive]
  | cons line front ih =>
    simp only [List.mem_cons, forall_eq_or_imp] at hfront
    have hmore := ih hfront.2
    rw [List.cons_append, latest?]
    split
    · next f hf =>
      rw [if_neg (fun hne => hne (hfront.1 f hf))]
      split
      · rfl
      · exact hmore
    · exact hmore

end RecordStore.Index
