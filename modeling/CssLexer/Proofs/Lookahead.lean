/-
  CssLexer.Proofs.Lookahead — how far a count looks behind what it counts.

  A count over `s ++ t` is the count over `s` alone as soon as one of the two shows that `t` has no part in it: the
  first by ending inside `s`, the second by ending so many characters before the end of `s` that nothing behind can
  add to it. One lemma for each count says so, with the number of characters that it needs; the first half serves to
  cut a text off behind a lexeme, the second to put a text behind it.

  Proved, the number of characters in brackets:
  - `countWhile_append`, `countUpTo_append`, `breakLength_append`, `escapeTail?_append` (1).
  - `runLength_append`: runs of `Local` items (2), because an item may fail for want of the character behind it.
  - `startedNameLength?_append` (2), `identLength?_append` (3), `markedLength_append`, `numberLength?_append` (2),
    `quotation?_append` (2).
-/

import CssLexer.Production.Progress
import CssLexer.Proofs.Openings

namespace CssLexer

/-! ## Counts that may be missing -/

theorem eq_none_of_getD_le_zero {o : Option Nat} (hpos : ∀ {n : Nat}, o = some n → 0 < n) (h : o.getD 0 ≤ 0) :
    o = none := by
  cases o with
  | none => rfl
  | some n =>
    have hn : n ≤ 0 := h
    have := hpos rfl
    omega

/-- What is known of a count that has grown by one character at least is known of the count without it. -/
theorem getD_of_map {o o' : Option Nat} {f f' : Nat → Nat} (hf : ∀ n, n < f n) (hf' : ∀ n, n < f' n) {k m : Nat}
    (h : (o.map f).getD 0 ≤ m + 1 ∨ (o'.map f').getD 0 + (k + 1) < m + 1) : o.getD 0 ≤ m ∨ o'.getD 0 + k < m := by
  rcases h with h | h
  · left
    cases o with
    | none => exact Nat.zero_le m
    | some n =>
      have hn : f n ≤ m + 1 := h
      have := hf n
      show n ≤ m
      omega
  · right
    cases o' with
    | none =>
      have hn : 0 + (k + 1) < m + 1 := h
      show 0 + k < m
      omega
    | some n =>
      have hn : f' n + (k + 1) < m + 1 := h
      have := hf' n
      show n + k < m
      omega

/-! ## Counts of characters -/

theorem countWhile_append {p : Char → Bool} {s t : Text}
    (h : countWhile p (s ++ t) ≤ s.length ∨ countWhile p s < s.length) : countWhile p (s ++ t) = countWhile p s := by
  unfold countWhile at h ⊢
  rw [List.takeWhile_append] at h ⊢
  split
  · rename_i hall
    rw [if_pos hall, List.length_append] at h
    rw [List.length_append]
    omega
  · rfl

theorem countUpTo_append {n : Nat} {p : Char → Bool} {s t : Text}
    (h : countUpTo n p (s ++ t) ≤ s.length ∨ countUpTo n p s < s.length) :
    countUpTo n p (s ++ t) = countUpTo n p s := by
  unfold countUpTo at h ⊢
  by_cases hn : n ≤ s.length
  · rw [List.take_append_of_le_length hn]
  · have hs : s.take n = s := List.take_of_length_le (by omega)
    rw [List.take_append, hs] at h ⊢
    exact countWhile_append h

/-! ## Escapes -/

/-- The length of the character of class `p`, or of the carriage return with its line feed, at the start of a text. -/
def breakLength (p : Char → Bool) : Text → Nat
  | '\r' :: '\n' :: _ => 2
  | c :: _ => if p c then 1 else 0
  | [] => 0

theorem newlineLength_eq (s : Text) : newlineLength s = breakLength isNewline s := by
  fun_cases newlineLength s <;> simp_all [breakLength]

theorem terminatorLength_eq (s : Text) : terminatorLength s = breakLength isWhitespace s := by
  fun_cases terminatorLength s <;> simp_all [breakLength]

theorem breakLength_cons {p : Char → Bool} {c : Char} {r : Text} (h : ¬ (c = '\r' ∧ r.head? = some '\n')) :
    breakLength p (c :: r) = if p c then 1 else 0 := by
  rw [breakLength]
  rintro r' rfl rfl
  exact h ⟨rfl, rfl⟩

theorem breakLength_append {p : Char → Bool} (hp : p '\r' = true) {s t : Text}
    (h : breakLength p (s ++ t) ≤ s.length ∨ breakLength p s < s.length) :
    breakLength p (s ++ t) = breakLength p s := by
  cases s with
  | nil =>
    rcases h with h | h
    · exact Nat.le_zero.mp h
    · cases h
  | cons c r =>
    rw [List.cons_append] at h ⊢
    by_cases hc : c = '\r' ∧ (r ++ t).head? = some '\n'
    · obtain ⟨rfl, hn⟩ := hc
      cases r with
      | nil =>
        -- the line feed stands in `t`: the longer text counts it, the shorter one counts to its end
        obtain ⟨t, rfl⟩ := List.head?_eq_some_iff.mp hn
        simp [breakLength, hp] at h
      | cons d r =>
        cases hn
        rfl
    · have hc' : ¬ (c = '\r' ∧ r.head? = some '\n') := by
        rintro ⟨rfl, hn⟩
        exact hc ⟨rfl, by rw [List.head?_append, hn]; rfl⟩
      rw [breakLength_cons hc, breakLength_cons hc']

theorem countUpTo_hexDigit_pos {c : Char} (h : isHexDigit c = true) (r : Text) :
    0 < countUpTo 6 isHexDigit (c :: r) := by
  rw [Nat.pos_iff_ne_zero, Ne, countUpTo_succ_eq_zero_iff, List.head?_cons, Option.any_some, h]
  decide

theorem escapeTail?_pos {r : Text} {n : Nat} (h : escapeTail? r = some n) : 0 < n := by
  cases r with
  | nil => cases h
  | cons c r =>
    simp only [escapeTail?] at h
    split at h
    · rename_i hc
      cases h
      have := countUpTo_hexDigit_pos hc r
      omega
    · split at h <;> cases h
      exact Nat.one_pos

theorem escapeTail?_append {s t : Text}
    (h : (escapeTail? (s ++ t)).getD 0 ≤ s.length ∨ (escapeTail? s).getD 0 < s.length) :
    escapeTail? (s ++ t) = escapeTail? s := by
  cases s with
  | nil =>
    rcases h with h | h
    · exact eq_none_of_getD_le_zero escapeTail?_pos h
    · cases h
  | cons c r =>
    simp only [List.cons_append, escapeTail?] at h ⊢
    by_cases hc : isHexDigit c = true
    · simp only [hc, if_true, Option.getD_some] at h ⊢
      have hle := countUpTo_le 6 isHexDigit (c :: r)
      rw [← List.cons_append] at h ⊢
      have hdigits : countUpTo 6 isHexDigit (c :: r ++ t) = countUpTo 6 isHexDigit (c :: r) :=
        countUpTo_append (by omega)
      rw [hdigits, List.drop_append_of_le_length hle, terminatorLength_eq, terminatorLength_eq] at h ⊢
      rw [breakLength_append (by decide)]
      rw [List.length_drop]
      omega
    · rw [if_neg hc, if_neg hc]

/-! ## Items and runs -/

/-- An item that looks no further than one character behind itself. -/
def Item.Local (item : Item) : Prop :=
  ∀ (c : Char) (r t : Text), (item c (r ++ t)).getD 0 ≤ r.length ∨ (item c r).getD 0 < r.length →
    item c (r ++ t) = item c r

theorem local_charOrEscape (p : Char → Bool) : (charOrEscape p).Local := by
  intro c r t h
  unfold charOrEscape at h ⊢
  by_cases hp : p c = true
  · rw [if_pos hp, if_pos hp]
  · rw [if_neg hp, if_neg hp] at h ⊢
    by_cases hb : (c == '\\') = true
    · rw [if_pos hb, if_pos hb] at h ⊢
      exact escapeTail?_append h
    · rw [if_neg hb, if_neg hb]

theorem runLength_cons_of_none {item : Item} {c : Char} {r : Text} (h : item c r = none) :
    runLength item (c :: r) = 0 := by rw [runLength_cons, h]

theorem runLength_cons_of_some {item : Item} {c : Char} {r : Text} {k : Nat} (h : item c r = some k) :
    runLength item (c :: r) = 1 + min k r.length + runLength item (r.drop k) := by rw [runLength_cons, h]

theorem runLength_append {item : Item} (hi : item.Local) {s t : Text}
    (h : runLength item (s ++ t) ≤ s.length ∨ runLength item s + 1 < s.length) :
    runLength item (s ++ t) = runLength item s := by
  by_cases ht : t = []
  · rw [ht, List.append_nil]
  have hpos := List.length_pos_iff.mpr ht
  induction hn : s.length using Nat.strongRecOn generalizing s with
  | _ n ih =>
    cases s with
    | nil =>
      rcases h with h | h
      · exact Nat.le_zero.mp h
      · cases h
    | cons c r =>
      rw [List.cons_append, List.length_cons] at h
      rw [List.length_cons] at hn
      have hitem : item c (r ++ t) = item c r := by
        apply hi
        rcases h with h | h
        · left
          cases hk : item c (r ++ t) with
          | none => exact Nat.zero_le _
          | some k =>
            rw [runLength_cons_of_some hk, List.length_append] at h
            show k ≤ r.length
            omega
        · right
          cases hk : item c r with
          | none =>
            rw [runLength_cons_of_none hk] at h
            show 0 < r.length
            omega
          | some k =>
            rw [runLength_cons_of_some hk] at h
            show k < r.length
            omega
      rw [List.cons_append]
      cases hk : item c r with
      | none => rw [runLength_cons_of_none hk, runLength_cons_of_none (hitem.trans hk)]
      | some k =>
        have hk' := hitem.trans hk
        rw [runLength_cons_of_some hk, runLength_cons_of_some hk', List.length_append] at h
        have hle : k ≤ r.length := by omega
        have hlen : (r.drop k).length = r.length - k := List.length_drop
        rw [List.drop_append_of_le_length hle] at h
        rw [runLength_cons_of_some hk, runLength_cons_of_some hk', List.length_append,
          List.drop_append_of_le_length hle, ih (r.drop k).length (by omega) (by omega) rfl]
        omega

/-- What a backslash in a string takes along of the text `s` behind it: the rest of an escape, or the newline. -/
def escapeReach (s : Text) : Nat := (escapeTail? s).getD (newlineLength s)

theorem escapeReach_of_some {s : Text} {n : Nat} (h : escapeTail? s = some n) : escapeReach s = n := by
  rw [escapeReach, h, Option.getD_some]

theorem escapeReach_of_none {s : Text} (h : escapeTail? s = none) : escapeReach s = newlineLength s := by
  rw [escapeReach, h, Option.getD_none]

theorem escapeReach_append {s t : Text} (h : escapeReach (s ++ t) ≤ s.length ∨ escapeReach s < s.length) :
    escapeReach (s ++ t) = escapeReach s := by
  by_cases hs : s = []
  · subst hs
    rcases h with h | h
    · exact Nat.le_zero.mp h
    · cases h
  have hpos := List.length_pos_iff.mpr hs
  have htail : escapeTail? (s ++ t) = escapeTail? s := by
    apply escapeTail?_append
    rcases h with h | h
    · left
      cases hn : escapeTail? (s ++ t) with
      | none => exact Nat.zero_le _
      | some n => rwa [escapeReach_of_some hn] at h
    · right
      cases hn : escapeTail? s with
      | none => exact hpos
      | some n => rwa [escapeReach_of_some hn] at h
  cases hn : escapeTail? s with
  | some n => rw [escapeReach_of_some hn, escapeReach_of_some (htail.trans hn)]
  | none =>
    rw [escapeReach_of_none hn, escapeReach_of_none (htail.trans hn), newlineLength_eq, newlineLength_eq] at h ⊢
    exact breakLength_append (by decide) h

theorem quotedItem_eq (quote c : Char) (r : Text) :
    quotedItem quote c r =
      if c == quote then none else if c == '\\' then some (escapeReach r) else if isNewline c then none else some 0 :=
  rfl

theorem local_quotedItem (quote : Char) : (quotedItem quote).Local := by
  intro c r t h
  rw [quotedItem_eq, quotedItem_eq] at h ⊢
  by_cases hq : (c == quote) = true
  · rw [if_pos hq, if_pos hq]
  · rw [if_neg hq, if_neg hq] at h ⊢
    by_cases hb : (c == '\\') = true
    · rw [if_pos hb, if_pos hb] at h ⊢
      rw [escapeReach_append h]
    · rw [if_neg hb, if_neg hb]

/-- The mark that closes a comment has two characters, so the body has to end before the last character of `s`. -/
theorem commentBody_append {s t : Text}
    (h : runLength commentItem (s ++ t) + 1 < s.length ∨ runLength commentItem s + 1 < s.length) :
    runLength commentItem (s ++ t) = runLength commentItem s := by
  induction s with
  | nil => rcases h with h | h <;> cases h
  | cons c r ih =>
    rw [List.length_cons] at h
    obtain ⟨d, r', rfl⟩ : ∃ d r', r = d :: r' := List.exists_cons_of_ne_nil (List.length_pos_iff.mp (by omega))
    rw [List.cons_append] at h ⊢
    by_cases hc : (c == '*' && d == '/') = true
    · have hnone (r : Text) : commentItem c (d :: r) = none := if_pos hc
      rw [List.cons_append, runLength_cons_of_none (hnone _), runLength_cons_of_none (hnone _)]
    · have hstep (r : Text) : runLength commentItem (c :: d :: r) = 1 + runLength commentItem (d :: r) :=
        commentBody_cons (by simpa using hc)
      rw [List.cons_append, hstep, hstep] at h ⊢
      rw [← List.cons_append, ih (by rw [List.cons_append, List.length_cons]; rw [List.length_cons] at h; omega)]

/-! ## Names -/

theorem nameLength_append {s t : Text} (h : nameLength (s ++ t) ≤ s.length ∨ nameLength s + 1 < s.length) :
    nameLength (s ++ t) = nameLength s := runLength_append (local_charOrEscape isNameChar) h

theorem startedNameLength?_append {s t : Text}
    (h : (startedNameLength? (s ++ t)).getD 0 ≤ s.length ∨ (startedNameLength? s).getD 0 + 1 < s.length) :
    startedNameLength? (s ++ t) = startedNameLength? s := by
  cases s with
  | nil =>
    rcases h with h | h
    · exact eq_none_of_getD_le_zero startedNameLength?_pos h
    · cases h
  | cons c r =>
    rw [List.cons_append, startedNameLength?, startedNameLength?, List.length_cons] at h
    rw [List.cons_append, startedNameLength?, startedNameLength?]
    have hitem : charOrEscape isNameStart c (r ++ t) = charOrEscape isNameStart c r :=
      local_charOrEscape isNameStart c r t
        (getD_of_map (k := 0) (fun n => by omega) (fun n => by omega) h)
    rw [hitem] at h ⊢
    cases hk : charOrEscape isNameStart c r with
    | none => rfl
    | some k =>
      have hle := charOrEscape_le hk
      have hlen : (r.drop k).length = r.length - k := List.length_drop
      rw [hk, Option.map_some, Option.map_some, Option.getD_some, Option.getD_some,
        List.drop_append_of_le_length hle] at h
      rw [Option.map_some, Option.map_some, List.drop_append_of_le_length hle, nameLength_append (by omega)]

theorem identLength?_cons_of_ne {c : Char} (h : c ≠ '-') (r : Text) :
    identLength? (c :: r) = startedNameLength? (c :: r) := by
  rw [identLength?]
  rintro _ ⟨⟩
  exact h rfl

theorem identLength?_append {s t : Text}
    (h : (identLength? (s ++ t)).getD 0 ≤ s.length ∨ (identLength? s).getD 0 + 2 < s.length) :
    identLength? (s ++ t) = identLength? s := by
  cases s with
  | nil =>
    rcases h with h | h
    · exact eq_none_of_getD_le_zero identLength?_pos h
    · cases h
  | cons c r =>
    by_cases hc : c = '-'
    · subst hc
      rw [List.cons_append, List.length_cons] at h
      rw [List.cons_append]
      simp only [identLength?] at h ⊢
      rw [startedNameLength?_append (getD_of_map (fun n => by omega) (fun n => by omega) h)]
    · rw [List.cons_append, identLength?_cons_of_ne hc, identLength?_cons_of_ne hc] at h ⊢
      rw [← List.cons_append] at h ⊢
      exact startedNameLength?_append (by omega)

/-! ## Numbers and strings -/

theorem markedLength_append {count : Text → Nat} {mark : Char} {s t : Text}
    (hcount : ∀ s t : Text, count (s ++ t) ≤ s.length ∨ count s < s.length → count (s ++ t) = count s)
    (h : markedLength mark count (s ++ t) ≤ s.length ∨ markedLength mark count s + 1 < s.length) :
    markedLength mark count (s ++ t) = markedLength mark count s := by
  cases s with
  | nil =>
    rcases h with h | h
    · exact Nat.le_zero.mp h
    · cases h
  | cons c r =>
    rw [List.cons_append, List.length_cons, markedLength, markedLength] at h
    rw [List.cons_append, markedLength, markedLength]
    by_cases hc : c = mark
    · simp only [hc, if_true] at h ⊢
      have hr : count (r ++ t) = count r := by
        apply hcount
        rcases h with h | h <;> split at h <;> omega
      rw [hr]
    · rw [if_neg hc, if_neg hc]

theorem fractionLength_append {s t : Text}
    (h : fractionLength (s ++ t) ≤ s.length ∨ fractionLength s + 1 < s.length) :
    fractionLength (s ++ t) = fractionLength s := by
  rw [fractionLength_eq, fractionLength_eq] at h ⊢
  exact markedLength_append (fun _ _ => countWhile_append) h

theorem upperBoundLength_append {s t : Text}
    (h : upperBoundLength (s ++ t) ≤ s.length ∨ upperBoundLength s + 1 < s.length) :
    upperBoundLength (s ++ t) = upperBoundLength s := by
  rw [upperBoundLength_eq, upperBoundLength_eq] at h ⊢
  exact markedLength_append (fun _ _ => countUpTo_append) h

theorem numberLength?_eq (s : Text) :
    numberLength? s =
      if countWhile isDigit s + fractionLength (s.drop (countWhile isDigit s)) = 0 then none
      else some (countWhile isDigit s + fractionLength (s.drop (countWhile isDigit s))) := by
  simp only [numberLength?]
  split <;> rename_i h <;> rw [h]
  · rfl
  · exact (if_neg (Nat.succ_ne_zero _)).symm

theorem numberLength?_getD (s : Text) :
    (numberLength? s).getD 0 = countWhile isDigit s + fractionLength (s.drop (countWhile isDigit s)) := by
  rw [numberLength?_eq]
  split
  · rename_i h
    rw [h, Option.getD_none]
  · rfl

theorem numberLength?_append {s t : Text}
    (h : (numberLength? (s ++ t)).getD 0 ≤ s.length ∨ (numberLength? s).getD 0 + 1 < s.length) :
    numberLength? (s ++ t) = numberLength? s := by
  rw [numberLength?_getD, numberLength?_getD] at h
  have hdigits : countWhile isDigit (s ++ t) = countWhile isDigit s := countWhile_append (by omega)
  have hle := countWhile_le isDigit s
  have hlen : (s.drop (countWhile isDigit s)).length = s.length - countWhile isDigit s := List.length_drop
  rw [hdigits, List.drop_append_of_le_length hle] at h
  have hfraction := fractionLength_append (s := s.drop (countWhile isDigit s)) (t := t) (by omega)
  rw [numberLength?_eq, numberLength?_eq, hdigits, List.drop_append_of_le_length hle, hfraction]

theorem quotation?_cons {quote : Char} (hq : isQuote quote = true) (r : Text) :
    quotation? (quote :: r) =
      if (r.drop (runLength (quotedItem quote) r)).head? = some quote then
        some (1 + runLength (quotedItem quote) r + 1, true)
      else some (1 + runLength (quotedItem quote) r, false) := by rw [quotation?, if_pos hq]

theorem quotation?_pos {s : Text} {found : Nat × Bool} (h : quotation? s = some found) : 0 < found.1 := by
  cases s with
  | nil => cases h
  | cons quote r =>
    by_cases hq : isQuote quote = true
    · rw [quotation?_cons hq] at h
      split at h <;> cases h <;> simp only [] <;> omega
    · rw [quotation?, if_neg hq] at h
      cases h

theorem quotation?_append {s t : Text}
    (h : ((quotation? (s ++ t)).map Prod.fst).getD 0 ≤ s.length ∨
      ((quotation? s).map Prod.fst).getD 0 + 1 < s.length) :
    quotation? (s ++ t) = quotation? s := by
  cases s with
  | nil =>
    rcases h with h | h
    · have hpos {n : Nat} (hn : (quotation? t).map Prod.fst = some n) : 0 < n := by
        obtain ⟨found, hfound, rfl⟩ := Option.map_eq_some_iff.mp hn
        exact quotation?_pos hfound
      exact Option.map_eq_none_iff.mp (eq_none_of_getD_le_zero hpos h)
    · cases h
  | cons quote r =>
    rw [List.cons_append] at h ⊢
    by_cases hq : isQuote quote = true
    · rw [quotation?_cons hq, quotation?_cons hq, List.length_cons] at h
      rw [quotation?_cons hq, quotation?_cons hq]
      have hbody : runLength (quotedItem quote) (r ++ t) = runLength (quotedItem quote) r := by
        apply runLength_append (local_quotedItem quote)
        rcases h with h | h
        · left
          split at h <;> simp only [Option.map_some, Option.getD_some] at h <;> omega
        · right
          split at h <;> simp only [Option.map_some, Option.getD_some] at h <;> omega
      have hle := runLength_le (quotedItem quote) r
      rw [hbody, List.drop_append_of_le_length hle] at h ⊢
      cases hd : r.drop (runLength (quotedItem quote) r) with
      | cons d u => rfl
      | nil =>
        -- the body reaches the end of `s`, so there is no room for a quotation mark that closes the string
        have hend : r.length ≤ runLength (quotedItem quote) r := List.drop_eq_nil_iff.mp hd
        rw [hd, List.nil_append] at h
        simp only [List.head?_nil, reduceCtorEq, if_false, Option.map_some, Option.getD_some] at h
        have hopen : t.head? ≠ some quote := by
          intro hclosed
          simp only [hclosed, if_true, Option.map_some, Option.getD_some] at h
          omega
        rw [List.nil_append, if_neg hopen, if_neg (by simp)]
    · rw [quotation?, quotation?, if_neg hq, if_neg hq]

end CssLexer
