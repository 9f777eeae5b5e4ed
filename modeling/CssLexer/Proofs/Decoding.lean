/-
  CssLexer.Proofs.Decoding — the decoder of escapes against the boundaries of tokens.

  The decoder walks a text on its own: a character at a time, and behind a backslash over what it takes for an escape
  or a line continuation. `Passes s r` says that on its walk from `s` it comes to stand before `r`. Where it does, the
  text before and the rest can be decoded apart. The lexer counts escapes by itself, and in comments not at all; every
  production but the single character still ends where the decoder stands.

  Proved:
  - `decodeEscape_snd`: the decoder takes along exactly what a backslash in a string does (`escapeReach`).
  - `unescape_of_passes`: where the decoder comes to stand, a text can be cut and decoded in parts.
  - `runLength_passes`, `closing_passes`: it passes a run of items at its end, and a comment behind its closing mark.
  - `lexeme?_passes`: it passes every lexeme at its end, a lone backslash apart.
  - `unescape_tokenize`: so decoding a text is decoding its tokens.
-/

import CssLexer.Proofs.Lookahead
import CssLexer.Proofs.Lossless
import CssLexer.Proofs.MaximalMunch
import CssLexer.Unescape

namespace CssLexer

/-! ## One escape -/

theorem afterTerminator_eq (s : Text) : afterTerminator s = s.drop (terminatorLength s) := by
  fun_cases afterTerminator s <;> simp_all [terminatorLength]

theorem escapeReach_of_hexDigit {c : Char} (h : isHexDigit c = true) (r : Text) :
    escapeReach (c :: r) = countUpTo 6 isHexDigit (c :: r) +
      terminatorLength ((c :: r).drop (countUpTo 6 isHexDigit (c :: r))) := by
  rw [escapeReach, escapeTail?, if_pos h, Option.getD_some]

theorem not_isHexDigit_of_isNewline {c : Char} (h : isNewline c = true) : ¬ isHexDigit c = true := by
  intro hx
  rw [isNewline_of_isHexDigit hx] at h
  cases h

theorem escapeReach_of_newline {c : Char} (h : isNewline c = true) (r : Text) :
    escapeReach (c :: r) = newlineLength (c :: r) := by
  rw [escapeReach, escapeTail?, if_neg (not_isHexDigit_of_isNewline h), if_pos h, Option.getD_none]

theorem escapeReach_of_plain {c : Char} (hx : ¬ isHexDigit c = true) (hn : ¬ isNewline c = true) (r : Text) :
    escapeReach (c :: r) = 1 := by rw [escapeReach, escapeTail?, if_neg hx, if_neg hn, Option.getD_some]

theorem newlineLength_of_newline {c : Char} {r : Text} (h : isNewline c = true)
    (hc : ¬ (c = '\r' ∧ r.head? = some '\n')) : newlineLength (c :: r) = 1 := by
  rw [newlineLength_eq, breakLength_cons hc, if_pos h]

theorem escapeReach_pos (c : Char) (r : Text) : 0 < escapeReach (c :: r) := by
  by_cases hx : isHexDigit c = true
  · have := countUpTo_hexDigit_pos hx r
    rw [escapeReach_of_hexDigit hx]
    omega
  by_cases hn : isNewline c = true
  · rw [escapeReach_of_newline hn]
    by_cases hc : c = '\r' ∧ r.head? = some '\n'
    · obtain ⟨rfl, hr⟩ := hc
      obtain ⟨t, rfl⟩ := List.head?_eq_some_iff.mp hr
      exact Nat.succ_pos 1
    · rw [newlineLength_of_newline hn hc]
      exact Nat.one_pos
  · rw [escapeReach_of_plain hx hn]
    exact Nat.one_pos

theorem decodeEscape_of_hexDigit {c : Char} (h : isHexDigit c = true) (r : Text) :
    decodeEscape (c :: r) =
      (some (escapedScalar (hexValue ((c :: r).take (countUpTo 6 isHexDigit (c :: r))))),
        (c :: r).drop (escapeReach (c :: r))) := by
  have hdigits : ((c :: r).take 6).takeWhile isHexDigit = (c :: r).take (countUpTo 6 isHexDigit (c :: r)) :=
    takeWhile_take_eq 6 isHexDigit (c :: r)
  have hlength : ((c :: r).take (countUpTo 6 isHexDigit (c :: r))).length = countUpTo 6 isHexDigit (c :: r) :=
    List.length_take_of_le (countUpTo_le 6 isHexDigit (c :: r))
  rw [decodeEscape]
  · simp only [h, if_true, hdigits, hlength, afterTerminator_eq, List.drop_drop, escapeReach_of_hexDigit h]
  · rintro _ rfl _
    revert h
    decide

theorem decodeEscape_of_newline {c : Char} (h : isNewline c = true) (r : Text) :
    decodeEscape (c :: r) = (none, (c :: r).drop (escapeReach (c :: r))) := by
  rw [escapeReach_of_newline h]
  by_cases hc : c = '\r' ∧ r.head? = some '\n'
  · obtain ⟨rfl, hr⟩ := hc
    obtain ⟨t, rfl⟩ := List.head?_eq_some_iff.mp hr
    rfl
  · rw [newlineLength_of_newline h hc, decodeEscape, if_neg (not_isHexDigit_of_isNewline h), if_pos h]
    · rfl
    · rintro _ rfl rfl
      exact hc ⟨rfl, rfl⟩

theorem decodeEscape_of_plain {c : Char} (hx : ¬ isHexDigit c = true) (hn : ¬ isNewline c = true) (r : Text) :
    decodeEscape (c :: r) = (some c, (c :: r).drop (escapeReach (c :: r))) := by
  rw [escapeReach_of_plain hx hn, decodeEscape, if_neg hx, if_neg hn]
  · rfl
  · rintro _ rfl _
    exact hn (by decide)

/-- Behind a backslash the decoder takes along what the lexer does inside a string. -/
theorem decodeEscape_snd (s : Text) : (decodeEscape s).2 = s.drop (escapeReach s) := by
  cases s with
  | nil => rfl
  | cons c r =>
    by_cases hx : isHexDigit c = true
    · rw [decodeEscape_of_hexDigit hx]
    by_cases hn : isNewline c = true
    · rw [decodeEscape_of_newline hn]
    · rw [decodeEscape_of_plain hx hn]

/-- What the decoder reads of an escape does not depend on what is behind the escape. -/
theorem decodeEscape_append {s t : Text} (h : escapeReach (s ++ t) ≤ s.length) :
    decodeEscape (s ++ t) = ((decodeEscape s).1, (decodeEscape s).2 ++ t) := by
  cases s with
  | nil =>
    cases t with
    | nil => rfl
    | cons c r => exact absurd h (Nat.not_le_of_lt (escapeReach_pos c r))
  | cons c r =>
    have hreach := escapeReach_append (Or.inl h)
    have hdrop : (c :: (r ++ t)).drop (escapeReach (c :: (r ++ t))) = (c :: r).drop (escapeReach (c :: r)) ++ t := by
      rw [← List.cons_append, hreach, List.drop_append_of_le_length (hreach ▸ h)]
    rw [List.cons_append] at h ⊢
    by_cases hx : isHexDigit c = true
    · have hdigits : countUpTo 6 isHexDigit (c :: r ++ t) = countUpTo 6 isHexDigit (c :: r) := by
        apply countUpTo_append
        rw [escapeReach_of_hexDigit hx] at h
        rw [List.cons_append]
        omega
      have htake : (c :: r ++ t).take (countUpTo 6 isHexDigit (c :: r)) =
          (c :: r).take (countUpTo 6 isHexDigit (c :: r)) :=
        List.take_append_of_le_length (countUpTo_le 6 isHexDigit (c :: r))
      rw [decodeEscape_of_hexDigit hx, decodeEscape_of_hexDigit hx, hdrop, ← List.cons_append, hdigits, htake]
    by_cases hn : isNewline c = true
    · rw [decodeEscape_of_newline hn, decodeEscape_of_newline hn, hdrop]
    · rw [decodeEscape_of_plain hx hn, decodeEscape_of_plain hx hn, hdrop]

/-! ## The walk of the decoder -/

/-- The decoder, on its way from `s`, comes to stand before `r`. -/
inductive Passes : Text → Text → Prop
  | here (s : Text) : Passes s s
  | char {c : Char} {s r : Text} : c ≠ '\\' → Passes s r → Passes (c :: s) r
  | escape {s r : Text} : Passes (decodeEscape s).2 r → Passes ('\\' :: s) r

theorem escapeReach_le (s : Text) : escapeReach s ≤ s.length := by
  cases h : escapeTail? s with
  | some n =>
    rw [escapeReach_of_some h]
    exact escapeTail?_le h
  | none =>
    rw [escapeReach_of_none h]
    exact newlineLength_le s

namespace Passes

theorem trans {s r q : Text} (h : Passes s r) (h' : Passes r q) : Passes s q := by
  induction h with
  | here => exact h'
  | char hc _ ih => exact .char hc (ih h')
  | escape _ ih => exact .escape (ih h')

theorem length_le {s r : Text} (h : Passes s r) : r.length ≤ s.length := by
  induction h with
  | here => exact Nat.le_refl _
  | char _ _ ih => exact Nat.le_succ_of_le ih
  | @escape s r _ ih => exact Nat.le_trans ih (Nat.le_succ_of_le (decodeEscape_length_le s))

theorem atEnd (s : Text) : Passes s [] := by
  induction hn : s.length using Nat.strongRecOn generalizing s with
  | _ n ih =>
    cases s with
    | nil => exact .here []
    | cons c r =>
      rw [List.length_cons] at hn
      by_cases hc : c = '\\'
      · subst hc
        have hle := decodeEscape_length_le r
        exact .escape (ih (decodeEscape r).2.length (by omega) _ rfl)
      · exact .char hc (ih r.length (by omega) r rfl)

theorem drop_add {s : Text} {m n : Nat} (h : Passes s (s.drop m)) (h' : Passes (s.drop m) ((s.drop m).drop n)) :
    Passes s (s.drop (m + n)) := by
  rw [List.drop_drop] at h'
  exact h.trans h'

theorem drop_succ {s r : Text} {c : Char} {n : Nat} (h : Passes s (s.drop n)) (hr : s.drop n = c :: r)
    (hc : c ≠ '\\') : Passes s (s.drop (n + 1)) := by
  refine h.drop_add ?_
  rw [hr]
  exact .char hc (.here r)

theorem drop_of_notMem {s : Text} {n : Nat} (h : '\\' ∉ s.take n) : Passes s (s.drop n) := by
  induction s generalizing n with
  | nil => rw [List.drop_nil]; exact .here []
  | cons c r ih =>
    cases n with
    | zero => exact .here _
    | succ n =>
      rw [List.take_succ_cons, List.mem_cons, not_or] at h
      exact .char (Ne.symm h.1) (ih h.2)

end Passes

/-- Where the decoder comes to stand, a text can be cut and decoded in parts. -/
theorem unescape_of_passes {v r : Text} (h : Passes (v ++ r) r) : unescape (v ++ r) = unescape v ++ unescape r := by
  generalize hs : v ++ r = s at h
  -- on the walk of the decoder; where it starts before `r` there is nothing to cut off
  induction h generalizing v with
  | here s =>
    rw [List.append_left_eq_self.mp hs, unescape_nil, List.nil_append]
  | @char c s r hc hp ih =>
    cases v with
    | nil =>
      rw [List.nil_append] at hs
      rw [hs, unescape_nil, List.nil_append]
    | cons d v =>
      obtain ⟨rfl, rfl⟩ : d = c ∧ v ++ r = s := List.cons_eq_cons.mp hs
      rw [unescape_cons, if_neg hc, unescape_cons, if_neg hc, ih rfl, List.cons_append]
  | @escape s r hp ih =>
    cases v with
    | nil =>
      rw [List.nil_append] at hs
      rw [hs, unescape_nil, List.nil_append]
    | cons d v =>
      obtain ⟨rfl, rfl⟩ : d = '\\' ∧ v ++ r = s := List.cons_eq_cons.mp hs
      have hlen := hp.length_le
      have hreach := escapeReach_le (v ++ r)
      rw [decodeEscape_snd, List.length_drop] at hlen
      rw [List.length_append] at hlen hreach
      have hsplit := decodeEscape_append (s := v) (t := r) (by omega)
      rw [hsplit] at ih
      rw [unescape_cons, if_pos rfl, unescape_cons, if_pos rfl, hsplit, ih rfl, List.append_assoc]

/-! ## Counts and runs -/

theorem countWhile_passes {p : Char → Bool} (hp : p '\\' = false) (s : Text) : Passes s (s.drop (countWhile p s)) := by
  apply Passes.drop_of_notMem
  intro hm
  rw [of_mem_take_countWhile hm] at hp
  cases hp

theorem countUpTo_passes {p : Char → Bool} (hp : p '\\' = false) (n : Nat) (s : Text) :
    Passes s (s.drop (countUpTo n p s)) := by
  apply Passes.drop_of_notMem
  intro hm
  rw [of_mem_take_countUpTo hm] at hp
  cases hp

theorem markedLength_passes {mark : Char} {count : Text → Nat} (hmark : mark ≠ '\\')
    (hcount : ∀ s, Passes s (s.drop (count s))) (s : Text) : Passes s (s.drop (markedLength mark count s)) := by
  cases s with
  | nil => exact .here []
  | cons c r =>
    rw [markedLength]
    split
    · rename_i hc
      split
      · exact .here _
      · rw [drop_one_add]
        exact .char (hc ▸ hmark) (hcount r)
    · exact .here _

/-- An item that is one character, or a backslash with what the decoder takes along. -/
def Item.Decoded (item : Item) : Prop :=
  ∀ {c : Char} {r : Text} {k : Nat}, item c r = some k → k = if c = '\\' then escapeReach r else 0

theorem decoded_charOrEscape {p : Char → Bool} (hp : p '\\' = false) : (charOrEscape p).Decoded := by
  intro c r k h
  unfold charOrEscape at h
  split at h
  · rename_i hc
    cases h
    rw [if_neg]
    rintro rfl
    rw [hp] at hc
    cases hc
  · split at h
    · rename_i hb
      rw [if_pos (beq_iff_eq.mp hb), escapeReach_of_some h]
    · cases h

theorem decoded_quotedItem (quote : Char) : (quotedItem quote).Decoded := by
  intro c r k h
  rw [quotedItem_eq] at h
  split at h
  · cases h
  · split at h
    · rename_i hb
      cases h
      rw [if_pos (beq_iff_eq.mp hb)]
    · rename_i hb
      split at h
      · cases h
      · cases h
        rw [if_neg fun hc => hb (beq_iff_eq.mpr hc)]

theorem runLength_passes {item : Item} (hi : item.Decoded) (s : Text) : Passes s (s.drop (runLength item s)) := by
  induction hn : s.length using Nat.strongRecOn generalizing s with
  | _ n ih =>
    cases s with
    | nil => exact .here []
    | cons c r =>
      rw [List.length_cons] at hn
      cases hk : item c r with
      | none =>
        rw [runLength_cons_of_none hk]
        exact .here _
      | some k =>
        have hcase := hi hk
        have hle : k ≤ r.length := by
          have := escapeReach_le r
          split at hcase <;> omega
        have hrest := ih (r.drop k).length (by rw [List.length_drop]; omega) (r.drop k) rfl
        rw [runLength_cons_of_some hk, Nat.min_eq_left hle, Nat.add_assoc, drop_one_add, ← List.drop_drop]
        by_cases hc : c = '\\'
        · subst hc
          rw [if_pos rfl] at hcase
          refine .escape ?_
          rwa [decodeEscape_snd, ← hcase]
        · rw [if_neg hc] at hcase
          subst hcase
          exact .char hc hrest

theorem nameLength_passes (s : Text) : Passes s (s.drop (nameLength s)) :=
  runLength_passes (decoded_charOrEscape (by decide)) s

theorem startedNameLength?_passes {s : Text} {n : Nat} (h : startedNameLength? s = some n) : Passes s (s.drop n) := by
  cases s with
  | nil => cases h
  | cons c r =>
    rw [startedNameLength?, Option.map_eq_some_iff] at h
    obtain ⟨k, hk, rfl⟩ := h
    have hcase := decoded_charOrEscape (by decide) hk
    rw [Nat.add_assoc, drop_one_add, ← List.drop_drop]
    by_cases hc : c = '\\'
    · subst hc
      rw [if_pos rfl] at hcase
      refine .escape ?_
      rw [decodeEscape_snd, ← hcase]
      exact nameLength_passes (r.drop k)
    · rw [if_neg hc] at hcase
      subst hcase
      exact .char hc (nameLength_passes r)

theorem identLength?_passes {s : Text} {n : Nat} (h : identLength? s = some n) : Passes s (s.drop n) := by
  unfold identLength? at h
  split at h
  · rw [Option.map_eq_some_iff] at h
    obtain ⟨k, hk, rfl⟩ := h
    rw [drop_one_add]
    exact .char (by decide) (startedNameLength?_passes hk)
  · exact startedNameLength?_passes h

theorem numberLength?_passes {s : Text} {n : Nat} (h : numberLength? s = some n) : Passes s (s.drop n) := by
  rw [numberLength?_eq] at h
  split at h
  · cases h
  · cases h
    refine (countWhile_passes (by decide) s).drop_add ?_
    rw [fractionLength_eq]
    exact markedLength_passes (by decide) (countWhile_passes (by decide)) _

theorem ne_backslash_of_isQuote {c : Char} (h : isQuote c = true) : c ≠ '\\' := by
  rintro rfl
  revert h
  decide

theorem quotation?_passes {s : Text} {n : Nat} {closed : Bool} (h : quotation? s = some (n, closed)) :
    Passes s (s.drop n) := by
  cases s with
  | nil => cases h
  | cons quote r =>
    by_cases hq : isQuote quote = true
    · have hbody : Passes (quote :: r) ((quote :: r).drop (1 + runLength (quotedItem quote) r)) := by
        rw [drop_one_add]
        exact .char (ne_backslash_of_isQuote hq) (runLength_passes (decoded_quotedItem quote) r)
      rw [quotation?_cons hq] at h
      split at h
      · rename_i hclosed
        cases h
        obtain ⟨t, ht⟩ := List.head?_eq_some_iff.mp hclosed
        exact hbody.drop_succ (by rw [drop_one_add, ht]) (ne_backslash_of_isQuote hq)
      · cases h
        exact hbody
    · rw [quotation?, if_neg hq] at h
      cases h

/-! ## Comments -/

theorem countUpTo_stop {p : Char → Bool} {d : Char} (hd : p d = false) (n : Nat) (x y : Text) :
    countUpTo n p (x ++ d :: y) ≤ x.length := by
  by_contra hlt
  obtain ⟨k, hk⟩ : ∃ k, countUpTo n p (x ++ d :: y) - x.length = k + 1 := ⟨_, (Nat.succ_pred_eq_of_pos (by omega)).symm⟩
  have hm : d ∈ (x ++ d :: y).take (countUpTo n p (x ++ d :: y)) := by
    rw [List.take_append, hk, List.take_succ_cons]
    exact List.mem_append_right _ List.mem_cons_self
  rw [of_mem_take_countUpTo hm] at hd
  cases hd

theorem breakLength_stop {p : Char → Bool} {d : Char} (hp : p d = false) (hr : d ≠ '\r') (hn : d ≠ '\n') (x y : Text) :
    breakLength p (x ++ d :: y) ≤ x.length := by
  rcases x with _ | ⟨c, _ | ⟨e, x⟩⟩
  · rw [List.nil_append, breakLength_cons (by simp [hr]), hp]
    exact Nat.le_refl 0
  · rw [List.cons_append, List.nil_append, breakLength_cons (by simp [hn])]
    split <;> simp
  · rw [List.cons_append, List.cons_append, breakLength.eq_def]
    simp only [List.length_cons]
    split
    · omega
    · split <;> omega
    · omega

/-- No escape takes along a character that is neither a digit of its sort nor blank, unless this is the character
behind its backslash. -/
theorem escapeReach_stop {d : Char} (hex : isHexDigit d = false) (hblank : isWhitespace d = false) {x : Text}
    (hx : x ≠ []) (y : Text) : escapeReach (x ++ d :: y) ≤ x.length := by
  have hbreak : d ≠ '\r' ∧ d ≠ '\n' := by
    constructor <;> intro hd <;> subst hd <;> revert hblank <;> decide
  obtain ⟨c, r, rfl⟩ := List.exists_cons_of_ne_nil hx
  rw [List.cons_append]
  by_cases hc : isHexDigit c = true
  · have hdigits := countUpTo_stop hex 6 (c :: r) y
    have hend := breakLength_stop hblank hbreak.1 hbreak.2
      ((c :: r).drop (countUpTo 6 isHexDigit (c :: r ++ d :: y))) y
    rw [← List.drop_append_of_le_length hdigits, ← terminatorLength_eq, List.length_drop] at hend
    rw [escapeReach_of_hexDigit hc, ← List.cons_append]
    omega
  by_cases hn : isNewline c = true
  · have hnewline : isNewline d = false := by
      simp only [isWhitespace, Bool.or_eq_false_iff] at hblank
      simp [isNewline, hblank]
    rw [escapeReach_of_newline hn, newlineLength_eq, ← List.cons_append]
    exact breakLength_stop hnewline hbreak.1 hbreak.2 (c :: r) y
  · rw [escapeReach_of_plain hc hn, List.length_cons]
    omega

/-- Whatever is before the mark that closes a comment, the decoder comes to stand behind the mark. -/
theorem closing_passes (x u : Text) : Passes (x ++ '*' :: '/' :: u) u := by
  have hslash : Passes ('/' :: u) u := .char (by decide) (.here u)
  induction hn : x.length using Nat.strongRecOn generalizing x with
  | _ n ih =>
    cases x with
    | nil => exact .char (by decide) hslash
    | cons c x =>
      rw [List.length_cons] at hn
      rw [List.cons_append]
      by_cases hc : c = '\\'
      · subst hc
        refine .escape ?_
        rw [decodeEscape_snd]
        by_cases hx : x = []
        · -- the star itself is escaped
          subst hx
          rw [List.nil_append, escapeReach_of_plain (by decide) (by decide)]
          exact hslash
        · have hreach := escapeReach_stop (show isHexDigit '*' = false by decide) (by decide) hx ('/' :: u)
          rw [List.drop_append_of_le_length hreach]
          exact ih _ (by rw [List.length_drop]; omega) _ rfl
      · exact .char hc (ih x.length (by omega) x rfl)

/-! ## Lexemes -/

theorem ne_backslash_of_isLetterOf {lower c : Char} (hl : isLetterOf lower '\\' = false)
    (h : isLetterOf lower c = true) : c ≠ '\\' := by
  rintro rfl
  rw [h] at hl
  cases hl

theorem afterUrlOpening?_passes {s rest : Text} (h : afterUrlOpening? s = some rest) :
    s.drop 4 = rest ∧ Passes s (s.drop 4) := by
  unfold afterUrlOpening? at h
  split at h
  · split at h
    · rename_i hall
      cases h
      simp only [Bool.and_eq_true] at hall
      refine ⟨rfl, .char (ne_backslash_of_isLetterOf (by decide) hall.1.1) ?_⟩
      refine .char (ne_backslash_of_isLetterOf (by decide) hall.1.2) ?_
      exact .char (ne_backslash_of_isLetterOf (by decide) hall.2) (.char (by decide) (.here _))
    · cases h
  · cases h

namespace Lexeme

variable {s : Text} {l : Lexeme}

theorem comment?_passes (h : comment? s = some l) : Passes s (s.drop l.length) := by
  unfold comment? at h
  split at h
  · rename_i r
    simp only at h
    split at h
    · rename_i hopen
      cases h
      have hend : ('/' :: '*' :: r).drop (2 + runLength commentItem r) = [] := by
        rw [← List.drop_drop]
        exact hopen
      rw [hend]
      exact .atEnd _
    · rename_i hne
      cases h
      obtain hend | ⟨u, hu⟩ := drop_commentBody r
      · exact absurd hend hne
      · have hsplit : r = r.take (runLength commentItem r) ++ '*' :: '/' :: u := by
          rw [← hu, List.take_append_drop]
        have hrest : ('/' :: '*' :: r).drop (2 + runLength commentItem r + 2) = u := by
          rw [← List.drop_drop, ← List.drop_drop]
          show (r.drop (runLength commentItem r)).drop 2 = u
          rw [hu]
          rfl
        rw [hrest]
        refine .char (by decide) (.char (by decide) ?_)
        rw [hsplit]
        exact closing_passes _ u
  · cases h

theorem space?_passes (h : space? s = some l) : Passes s (s.drop l.length) := by
  have hblanks := countWhile_passes (show isWhitespace '\\' = false by decide) s
  unfold space? at h
  split at h
  · cases h
  · rename_i hn
    cases h
    rwa [hn] at hblanks

theorem string?_passes (h : string? s = some l) : Passes s (s.drop l.length) := by
  rw [string?, Option.map_eq_some_iff] at h
  obtain ⟨⟨n, closed⟩, hq, rfl⟩ := h
  exact quotation?_passes hq

theorem closeUrl_passes {n : Nat} (h : Passes s (s.drop n)) :
    Passes s (s.drop (closeUrl n (s.drop n)).length) := by
  have hblanks := h.drop_add (countWhile_passes (show isWhitespace '\\' = false by decide) (s.drop n))
  unfold closeUrl
  simp only
  split
  · rename_i t ht
    rw [List.drop_drop] at ht
    exact hblanks.drop_succ ht (by decide)
  · exact hblanks

theorem uri?_passes (h : uri? s = some l) : Passes s (s.drop l.length) := by
  simp only [uri?, Option.map_eq_some_iff] at h
  obtain ⟨rest, hrest, rfl⟩ := h
  obtain ⟨rfl, hopening⟩ := afterUrlOpening?_passes hrest
  have hblanks := hopening.drop_add (countWhile_passes (show isWhitespace '\\' = false by decide) (s.drop 4))
  rw [List.drop_drop]
  split
  · rename_i n hq
    exact hblanks.drop_add (quotation?_passes hq)
  · rename_i n hq
    rw [List.drop_drop]
    exact closeUrl_passes (hblanks.drop_add (quotation?_passes hq))
  · rw [List.drop_drop]
    exact closeUrl_passes (hblanks.drop_add (runLength_passes (decoded_charOrEscape (by decide)) _))

theorem unicodeRange?_passes (h : unicodeRange? s = some l) : Passes s (s.drop l.length) := by
  unfold unicodeRange? at h
  split at h
  · rename_i u r
    simp only at h
    split at h
    · rename_i hu
      have hopening : Passes (u :: '+' :: r) ((u :: '+' :: r).drop 2) :=
        .char (ne_backslash_of_isLetterOf (by decide) hu) (.char (by decide) (.here r))
      have hdigits := hopening.drop_add (countUpTo_passes (show isHexDigit '\\' = false by decide) 6 r)
      have hdrop : (u :: '+' :: r).drop (2 + countUpTo 6 isHexDigit r) = r.drop (countUpTo 6 isHexDigit r) := by
        rw [← List.drop_drop]
        rfl
      split at h
      · cases h
      · split at h
        · cases h
          refine hdigits.drop_add ?_
          rw [upperBoundLength_eq, hdrop]
          exact markedLength_passes (by decide) (countUpTo_passes (by decide) 6) _
        · cases h
          refine hdigits.drop_add ?_
          rw [hdrop]
          exact countUpTo_passes (by decide) _ _
    · cases h
  · cases h

theorem embedding?_passes (h : embedding? s = some l) : Passes s (s.drop l.length) := by
  unfold embedding? at h
  split at h <;> cases h <;> exact Passes.drop_of_notMem (by simp)

theorem attributeOperator?_passes (h : attributeOperator? s = some l) : Passes s (s.drop l.length) := by
  unfold attributeOperator? at h
  split at h <;> cases h <;> exact Passes.drop_of_notMem (by simp)

theorem numeric?_passes (h : numeric? s = some l) : Passes s (s.drop l.length) := by
  simp only [numeric?, Option.map_eq_some_iff] at h
  obtain ⟨n, hn, rfl⟩ := h
  have hnumber := numberLength?_passes hn
  split
  · rename_i r hr
    exact hnumber.drop_succ hr (by decide)
  · split
    · rename_i unit hunit
      exact hnumber.drop_add (identLength?_passes hunit)
    · exact hnumber

theorem hash?_passes (h : hash? s = some l) : Passes s (s.drop l.length) := by
  unfold hash? at h
  split at h
  · rename_i r
    split at h
    · cases h
    · cases h
      rw [drop_one_add]
      exact .char (by decide) (nameLength_passes r)
  · cases h

theorem identLike?_passes (h : identLike? s = some l) : Passes s (s.drop l.length) := by
  unfold identLike? at h
  split at h
  · rename_i r
    rw [Option.map_eq_some_iff] at h
    obtain ⟨n, hn, rfl⟩ := h
    rw [drop_one_add]
    exact .char (by decide) (identLength?_passes hn)
  · rw [Option.map_eq_some_iff] at h
    obtain ⟨n, hn, rfl⟩ := h
    have hident := identLength?_passes hn
    split
    · rename_i r hr
      exact hident.drop_succ hr (by decide)
    · exact hident

theorem delim?_passes (h : delim? s = some l) (hb : s.head? ≠ some '\\') : Passes s (s.drop l.length) := by
  cases s with
  | nil => cases h
  | cons c r =>
    rw [delim?_eq_some h]
    exact .char (fun hc => hb (by rw [hc]; rfl)) (.here r)

end Lexeme

namespace Production

/-- The decoder passes a lexeme at its end, unless it is a lone backslash. -/
theorem lexeme?_passes {p : Production} {s : Text} {l : Lexeme} (h : p.lexeme? s = some l)
    (hb : p = delim → s.head? ≠ some '\\') : Passes s (s.drop l.length) := by
  cases p with
  | comment => exact Lexeme.comment?_passes h
  | whitespace => exact Lexeme.space?_passes h
  | string => exact Lexeme.string?_passes h
  | uri => exact Lexeme.uri?_passes h
  | unicodeRange => exact Lexeme.unicodeRange?_passes h
  | embedding => exact Lexeme.embedding?_passes h
  | attributeOperator => exact Lexeme.attributeOperator?_passes h
  | numeric => exact Lexeme.numeric?_passes h
  | hash => exact Lexeme.hash?_passes h
  | identLike => exact Lexeme.identLike?_passes h
  | delim => exact Lexeme.delim?_passes h (hb rfl)

end Production

/-! ## Whole texts -/

/-- A backslash that starts no escape, as a token of its own. -/
def Token.LoneBackslash (t : Token) : Prop := t.kind = .delim ∧ t.value = ['\\']

instance (t : Token) : Decidable t.LoneBackslash := inferInstanceAs (Decidable (_ ∧ _))

namespace Reader

theorem Step.passes {r next : Reader} {e : Entry} (h : Step r e next) (hb : ¬ e.token.LoneBackslash) :
    Passes r.remaining next.remaining := by
  rw [← h.drop]
  by_cases hmark : AtMark r
  · obtain ⟨t, ht⟩ := List.head?_eq_some_iff.mp hmark.2
    rw [rule_of_atMark hmark, ht]
    exact .char (by decide) (.here t)
  cases hsel : Production.select? r.remaining with
  | some found =>
    obtain ⟨p, l⟩ := found
    have hrule : r.rule = (.production p, l) := by rw [rule_of_not_atMark hmark, hsel]
    have hl := Production.select?_lexeme? hsel
    rw [hrule]
    apply Production.lexeme?_passes hl
    intro hp hhead
    obtain ⟨t, ht⟩ := List.head?_eq_some_iff.mp hhead
    rw [hp] at hl
    have hkind := h.kind
    have hvalue := h.value
    rw [hrule, Lexeme.delim?_eq_some (s := r.remaining) hl] at hkind hvalue
    rw [ht] at hvalue
    exact hb ⟨hkind, hvalue⟩
  | none =>
    have hrule : r.rule = (.unexpected, ⟨.unexpected, 1⟩) := by rw [rule_of_not_atMark hmark, hsel]
    have hdelim : Production.delim.lexeme? r.remaining = none :=
      (Production.firstOf_eq_none_iff Production.orderly_all).mp hsel .delim
    rw [hrule]
    cases hr : r.remaining with
    | nil => exact .here []
    | cons c t =>
      refine .char ?_ (.here t)
      rintro rfl
      rw [hr] at hdelim
      simp [Production.lexeme?, Lexeme.delim?, show isControl '\\' = false by decide] at hdelim

theorem Reads.passes {r last : Reader} {es : List Entry} (h : Reads r es last) (hlast : last.remaining = [])
    (hb : ∀ e ∈ es.dropLast, ¬ e.token.LoneBackslash) (k : Nat) :
    Passes (spelled ((es.map Entry.token).drop k)) (spelled ((es.map Entry.token).drop (k + 1))) := by
  induction h generalizing k with
  | done =>
    rw [List.map_nil, List.drop_nil, List.drop_nil]
    exact .here _
  | @step r next last e es he hr ih =>
    cases es with
    | nil =>
      -- behind the last token nothing is left, so it may be a lone backslash
      have hnil : ([e].map Entry.token).drop (k + 1) = [] := List.drop_eq_nil_of_le (Nat.le_add_left 1 k)
      rw [hnil]
      exact .atEnd _
    | cons e' es =>
      rw [List.dropLast_cons_cons] at hb
      cases k with
      | zero =>
        have hstep := (entry?_step he).passes (hb e List.mem_cons_self)
        rw [(Reads.step he hr).remaining, hr.remaining, hlast, List.append_nil, List.append_nil] at hstep
        exact hstep
      | succ k => exact ih hlast (fun e he => hb e (List.mem_cons_of_mem _ he)) k

end Reader

/-- Where the decoder gets from each boundary to the next, it decodes token by token. -/
theorem unescape_spelled {ts : List Token} (h : ∀ k, Passes (spelled (ts.drop k)) (spelled (ts.drop (k + 1)))) :
    unescape (spelled ts) = ts.flatMap fun t => unescape t.value := by
  induction ts with
  | nil => exact unescape_nil
  | cons t ts ih =>
    have hfirst : Passes (t.value ++ spelled ts) (spelled ts) := h 0
    rw [spelled_cons, unescape_of_passes hfirst, ih fun k => h (k + 1), List.flatMap_cons]

/-- Take a text in which no token but the last is a lone backslash. On its walk over the text the decoder comes to
stand at every boundary of tokens, in comments and malformed tokens as elsewhere; so decoding the text gives what
decoding its tokens one by one gives. -/
theorem unescape_tokenize {s : Text} (h : ∀ t ∈ (tokenize s).dropLast, ¬ (t.kind = .delim ∧ t.value = ['\\'])) :
    (∀ k, Passes s (spelled ((tokenize s).drop k))) ∧
    unescape s = (tokenize s).flatMap fun t => unescape t.value := by
  have hb : ∀ e ∈ (entries s).dropLast, ¬ e.token.LoneBackslash := by
    intro e he
    refine h e.token ?_
    rw [tokenize, ← List.map_dropLast]
    exact List.mem_map_of_mem he
  have hstep := (Reader.entries_reads (Reader.ofText s)).passes rfl hb
  constructor
  · intro k
    induction k with
    | zero => rw [List.drop_zero, spelled_tokenize]; exact .here s
    | succ k ih => exact ih.trans (hstep k)
  · have hdecode := unescape_spelled hstep
    rw [show (Reader.ofText s).entries.map Entry.token = tokenize s from rfl, spelled_tokenize] at hdecode
    exact hdecode

/-- An escape in a name that takes a line feed along, one in a comment before its closing mark, a string continued on
the next line, and a backslash at the end. -/
theorem unescape_tokenize_mixed :
    let s : Text := "\\62\nc/*\\*/'\\\r\n\\27'\\"
    (∀ t ∈ (tokenize s).dropLast, ¬ (t.kind = .delim ∧ t.value = ['\\'])) ∧
    (∀ k, Passes s (spelled ((tokenize s).drop k))) ∧ unescape s = "bc/**/'''" ∧
    unescape s = (tokenize s).flatMap fun t => unescape t.value := by
  intro s
  have h : ∀ t ∈ (tokenize s).dropLast, ¬ (t.kind = .delim ∧ t.value = ['\\']) := by decide +kernel
  exact ⟨h, (unescape_tokenize h).1, by decide +kernel, (unescape_tokenize h).2⟩

end CssLexer
