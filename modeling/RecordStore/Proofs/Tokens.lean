import Mathlib.Tactic.Common
import RecordStore.Proofs.Words

/-!
# Cutting into tokens

Tokens are the maximal runs of bytes without a delimiter, so a cut at the edge of a token cuts the
tokens too, and every token can be exchanged for another.

* `IsWord` — the bytes that make up one token.
* `Apart` — two stretches that share no token.

Principal results: `tokensFrom_append` — stretches apart are cut one after the other;
`tokensFrom_word` — a word that stands apart is one token; `exists_token_split` — where a token
stands, and what stands around it.
-/

set_option autoImplicit false

namespace RecordStore

/-- Bytes that make up one token. -/
def IsWord (s : Bytes) : Prop := s ≠ [] ∧ ∀ b ∈ s, isDelimiter b = false

/-- Bytes that are empty or end in a delimiter. -/
def EndsApart (s : Bytes) : Prop := ∀ b, s.getLast? = some b → isDelimiter b = true

/-- Bytes that are empty or start with a delimiter. -/
def StartsApart (s : Bytes) : Prop := ∀ b, s.head? = some b → isDelimiter b = true

/-- No token reaches from the first stretch into the second. -/
def Apart (front rest : Bytes) : Prop := EndsApart front ∨ StartsApart rest

theorem EndsApart.nil : EndsApart [] := by simp [EndsApart]

theorem StartsApart.nil : StartsApart [] := by simp [StartsApart]

theorem StartsApart.cons {b : UInt8} (h : isDelimiter b = true) (s : Bytes) :
    StartsApart (b :: s) := by
  simpa [StartsApart] using h

theorem EndsApart.cons {s : Bytes} (h : EndsApart s) {b : UInt8} (hb : s = [] → isDelimiter b = true) :
    EndsApart (b :: s) := by
  intro c hc
  cases s with
  | nil =>
    obtain rfl : b = c := by simpa using hc
    exact hb rfl
  | cons d s => exact h c (by simpa using hc)

theorem isDelimiter_newline : isDelimiter newline = true := by decide

theorem isDelimiter_space : isDelimiter space = true := by decide

theorem isDelimiter_equals : isDelimiter equals = false := by decide

theorem IsWord.not_startsApart {s : Bytes} (h : IsWord s) (rest : Bytes) :
    ¬ StartsApart (s ++ rest) := by
  intro hs
  cases s with
  | nil => exact h.1 rfl
  | cons b s => simpa [h.2 b (List.mem_cons_self ..)] using hs b rfl

theorem IsWord.append {s t : Bytes} (hs : IsWord s) (ht : ∀ b ∈ t, isDelimiter b = false) :
    IsWord (s ++ t) := by
  refine ⟨fun h => hs.1 (List.append_eq_nil_iff.1 h).1, fun b hb => ?_⟩
  rcases List.mem_append.1 hb with hb | hb
  · exact hs.2 b hb
  · exact ht b hb

/-! ## One step -/

theorem tokensFrom_delimiter {b : UInt8} (h : isDelimiter b = true) (start : Nat) (rest : Bytes) :
    tokensFrom start (b :: rest) = tokensFrom (start + 1) rest := by
  simp [tokensFrom, h]

theorem le_offset_of_mem_tokensFrom {start : Nat} {s : Bytes} {token : Token}
    (h : token ∈ tokensFrom start s) : start ≤ token.offset := by
  induction s generalizing start token with
  | nil => simp [tokensFrom] at h
  | cons b rest ih =>
    unfold tokensFrom at h
    by_cases hb : isDelimiter b = true
    · rw [if_pos hb] at h
      exact Nat.le_of_succ_le (ih h)
    · rw [if_neg hb] at h
      cases hl : tokensFrom (start + 1) rest with
      | nil =>
        rw [hl] at h
        obtain rfl := List.mem_singleton.1 h
        exact Nat.le_refl _
      | cons first more =>
        rw [hl] at h
        have hmem : ∀ t ∈ first :: more, start ≤ t.offset := fun t ht =>
          Nat.le_of_succ_le (ih (hl ▸ ht))
        dsimp only at h
        split at h
        · rcases List.mem_cons.1 h with rfl | h
          · exact Nat.le_refl _
          · exact hmem token (List.mem_cons_of_mem _ h)
        · rcases List.mem_cons.1 h with rfl | h
          · exact Nat.le_refl _
          · exact hmem token h

/-- Bytes that start with a delimiter have no token right at the front. -/
theorem offset_ne_of_startsApart {start : Nat} {s : Bytes} (hs : StartsApart s) {token : Token}
    (h : token ∈ tokensFrom start s) : token.offset ≠ start := by
  cases s with
  | nil => simp [tokensFrom] at h
  | cons b rest =>
    rw [tokensFrom_delimiter (hs b rfl)] at h
    have := le_offset_of_mem_tokensFrom h
    omega

/-- A word that is followed by no other byte of a token is one token. -/
theorem tokensFrom_word {s : Bytes} (hs : IsWord s) {rest : Bytes} (hr : StartsApart rest)
    (start : Nat) :
    tokensFrom start (s ++ rest) = ⟨start, s⟩ :: tokensFrom (start + s.length) rest := by
  obtain ⟨hne, hs⟩ := hs
  induction s generalizing start with
  | nil => exact absurd rfl hne
  | cons b s ih =>
    simp only [List.mem_cons, forall_eq_or_imp] at hs
    have hlen : start + (b :: s).length = start + 1 + s.length := by
      rw [List.length_cons]
      omega
    rw [List.cons_append, tokensFrom, if_neg (by simp [hs.1]), hlen]
    by_cases hnil : s = []
    · subst hnil
      simp only [List.nil_append, List.length_nil, Nat.add_zero]
      cases hl : tokensFrom (start + 1) rest with
      | nil => rfl
      | cons token more =>
        have : token.offset ≠ start + 1 :=
          offset_ne_of_startsApart hr (hl ▸ List.mem_cons_self ..)
        simp [this]
    · rw [ih (start + 1) hnil hs.2]
      simp

/-- Bytes that do not start with a delimiter start with a word. -/
theorem exists_front_word {b : UInt8} (hb : ¬ isDelimiter b = true) {s : Bytes} :
    ∃ word after, b :: s = word ++ after ∧ IsWord word ∧ StartsApart after := by
  induction s generalizing b with
  | nil => exact ⟨[b], [], rfl, ⟨by simp, by simpa using hb⟩, StartsApart.nil⟩
  | cons c s ih =>
    by_cases hc : isDelimiter c = true
    · exact ⟨[b], c :: s, rfl, ⟨by simp, by simpa using hb⟩, StartsApart.cons hc s⟩
    · obtain ⟨word, after, heq, hword, hafter⟩ := ih hc
      refine ⟨b :: word, after, by rw [heq, List.cons_append], ⟨by simp, ?_⟩, hafter⟩
      simp only [List.mem_cons, forall_eq_or_imp]
      exact ⟨by simpa using hb, hword.2⟩

/-- **Stretches that share no token are cut one after the other.** -/
theorem tokensFrom_append {front rest : Bytes} (h : Apart front rest) (start : Nat) :
    tokensFrom start (front ++ rest) =
      tokensFrom start front ++ tokensFrom (start + front.length) rest := by
  induction hn : front.length using Nat.strongRecOn generalizing front start with
  | ind n ih =>
    cases front with
    | nil => simp [tokensFrom, ← hn]
    | cons b front =>
      by_cases hb : isDelimiter b = true
      · have hapart : Apart front rest := by
          rcases h with h | h
          · refine Or.inl fun c hc => h c ?_
            cases front with
            | nil => simp at hc
            | cons d front => simpa using hc
          · exact Or.inr h
        have hlen : start + n = start + 1 + front.length := by
          rw [List.length_cons] at hn
          omega
        rw [List.cons_append, tokensFrom_delimiter hb, tokensFrom_delimiter hb,
          ih front.length (by rw [← hn, List.length_cons]; omega) hapart (start + 1) rfl, hlen]
      · -- the word at the front and what follows it
        obtain ⟨word, after, heq, hword, hafter⟩ := exists_front_word (s := front) hb
        have hpos := List.length_pos_iff.2 hword.1
        have hcount := congrArg List.length heq
        rw [List.length_append] at hcount
        have hrest : StartsApart (after ++ rest) := by
          by_cases ha : after = []
          · subst ha
            rcases h with h | h
            · exfalso
              rw [heq, List.append_nil] at h
              have := h _ (List.getLast?_eq_some_getLast hword.1)
              rw [hword.2 _ (List.getLast_mem hword.1)] at this
              exact absurd this (by decide)
            · exact h
          · intro c hc
            refine hafter c ?_
            cases after with
            | nil => exact absurd rfl ha
            | cons d after => simpa using hc
        have hapart : Apart after rest := by
          rcases h with h | h
          · refine Or.inl fun c hc => h c ?_
            rw [heq, List.getLast?_append, hc]
            rfl
          · exact Or.inr h
        rw [heq, List.append_assoc, tokensFrom_word hword hrest, tokensFrom_word hword hafter,
          ih after.length (by omega) hapart (start + word.length) rfl, List.cons_append,
          show start + word.length + after.length = start + n by omega]

theorem tokensFrom_delimiters {s : Bytes} (h : ∀ b ∈ s, isDelimiter b = true) (start : Nat) :
    tokensFrom start s = [] := by
  induction s generalizing start with
  | nil => rfl
  | cons b s ih =>
    simp only [List.mem_cons, forall_eq_or_imp] at h
    rw [tokensFrom_delimiter h.1, ih h.2]

/-! ## Exchanging a token -/

/-- **Where a token stands**: it is a word, apart from what stands around it. -/
theorem exists_token_split {start : Nat} {s : Bytes} {before after : List Token} {token : Token}
    (h : tokensFrom start s = before ++ token :: after) :
    ∃ front rest, s = front ++ (token.text ++ rest) ∧ token.offset = start + front.length ∧
      IsWord token.text ∧ EndsApart front ∧ StartsApart rest ∧ tokensFrom start front = before ∧
      tokensFrom (token.offset + token.text.length) rest = after := by
  induction hn : s.length using Nat.strongRecOn generalizing s start before with
  | ind n ih =>
    cases s with
    | nil => simp [tokensFrom] at h
    | cons b s =>
      by_cases hb : isDelimiter b = true
      · rw [tokensFrom_delimiter hb] at h
        obtain ⟨front, rest, heq, hoff, hword, hfront, hrest, hbefore, hafter⟩ :=
          ih s.length (by rw [← hn, List.length_cons]; omega) h rfl
        refine ⟨b :: front, rest, by rw [heq, List.cons_append], ?_, hword, hfront.cons fun _ => hb,
          hrest, ?_, hafter⟩
        · rw [hoff, List.length_cons]
          omega
        · rw [tokensFrom_delimiter hb, hbefore]
      · obtain ⟨word, tail, heq, hword, htail⟩ := exists_front_word (s := s) hb
        have hpos := List.length_pos_iff.2 hword.1
        have hcount := congrArg List.length heq
        rw [List.length_append] at hcount
        rw [heq, tokensFrom_word hword htail] at h
        cases before with
        | nil =>
          simp only [List.nil_append, List.cons.injEq] at h
          obtain ⟨rfl, rfl⟩ := h
          exact ⟨[], tail, heq, rfl, hword, EndsApart.nil, htail, rfl, rfl⟩
        | cons first before =>
          simp only [List.cons_append, List.cons.injEq] at h
          obtain ⟨rfl, h⟩ := h
          obtain ⟨front, rest, heq', hoff, hword', hfront, hrest, hbefore, hafter⟩ :=
            ih tail.length (by omega) h rfl
          -- the token found cannot touch the word in front of it
          have hne : front ≠ [] := by
            rintro rfl
            exact hword'.not_startsApart rest (heq' ▸ htail)
          have hstarts : StartsApart front := by
            intro c hc
            refine htail c ?_
            cases front with
            | nil => exact absurd rfl hne
            | cons d front => simpa [heq'] using hc
          refine ⟨word ++ front, rest, ?_, ?_, hword', ?_, hrest, ?_, hafter⟩
          · rw [heq, heq', List.append_assoc]
          · rw [hoff, List.length_append, Nat.add_assoc]
          · intro c hc
            rw [List.getLast?_append, List.getLast?_eq_some_getLast hne] at hc
            exact hfront c ((List.getLast?_eq_some_getLast hne).trans hc)
          · rw [tokensFrom_word hword hstarts, hbefore]

/-! ## The texts alone -/

/-- The texts of the tokens, in order. -/
def words (s : Bytes) : List Bytes := (tokensFrom 0 s).map Token.text

/-- The texts do not depend on where the bytes stand. -/
theorem map_text_tokensFrom (start : Nat) (s : Bytes) :
    (tokensFrom start s).map Token.text = words s := by
  suffices ∀ i j, (tokensFrom i s).map Token.text = (tokensFrom j s).map Token.text from this start 0
  induction hn : s.length using Nat.strongRecOn generalizing s with
  | ind n ih =>
    intro i j
    cases s with
    | nil => rfl
    | cons b s =>
      by_cases hb : isDelimiter b = true
      · rw [tokensFrom_delimiter hb, tokensFrom_delimiter hb]
        exact ih s.length (by rw [← hn, List.length_cons]; omega) s rfl _ _
      · obtain ⟨word, tail, heq, hword, htail⟩ := exists_front_word (s := s) hb
        have hpos := List.length_pos_iff.2 hword.1
        have hcount := congrArg List.length heq
        rw [List.length_append] at hcount
        rw [heq, tokensFrom_word hword htail, tokensFrom_word hword htail, List.map_cons,
          List.map_cons, ih tail.length (by omega) tail rfl _ _]

theorem words_append {front rest : Bytes} (h : Apart front rest) :
    words (front ++ rest) = words front ++ words rest := by
  rw [words, tokensFrom_append h, List.map_append, map_text_tokensFrom, map_text_tokensFrom]

theorem words_word {s rest : Bytes} (hs : IsWord s) (hr : StartsApart rest) :
    words (s ++ rest) = s :: words rest := by
  rw [words, tokensFrom_word hs hr, List.map_cons, map_text_tokensFrom]

theorem words_delimiter {b : UInt8} (h : isDelimiter b = true) (rest : Bytes) :
    words (b :: rest) = words rest := by
  rw [words, tokensFrom_delimiter h, map_text_tokensFrom]

theorem words_delimiters {s : Bytes} (h : ∀ b ∈ s, isDelimiter b = true) : words s = [] := by
  rw [words, tokensFrom_delimiters h, List.map_nil]

end RecordStore
