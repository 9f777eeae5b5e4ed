/-
  CssLexer.Proofs.Bytes.Agreement — by bytes, a production finds what it finds by characters.

  Every length counted in bytes is the length of as many characters as the same production counts, so every cut falls
  behind a whole number of characters of the text and every difference is one of a part from its whole.

  Proved:
  - `Turn.loop_bytesIn`: a loop, one invariant for all of them.
  - `extent?_eq`: no production misses, and each finds its lexeme.
  - `extent_bounds`: what it finds has at least one byte, stays inside the text and ends behind a character.
-/

import CssLexer.Production.Progress
import CssLexer.Proofs.Bytes.Extent
import CssLexer.Proofs.Openings

namespace CssLexer

namespace Extent

open Text

/-! ## Classes -/

theorem isAscii_isWhitespace : IsAscii isWhitespace := fun _ h => isWhitespace_of_nonascii h

theorem isAscii_isNewline : IsAscii isNewline := fun _ h => isNewline_of_nonascii h

theorem isAscii_isQuote : IsAscii isQuote := fun _ h => isQuote_of_nonascii h

theorem isAscii_isDigit : IsAscii isDigit := fun _ h => isDigit_of_nonascii h

theorem isAscii_isHexDigit : IsAscii isHexDigit := fun _ h => isHexDigit_of_nonascii h

theorem isAscii_beq {d : Char} (hd : isNonascii d = false) : IsAscii (· == d) := fun _ h => beq_of_nonascii h hd

theorem isAscii_isLetterOf {d : Char} (hd : isNonascii d = false) : IsAscii (isLetterOf d) :=
  fun _ h => isLetterOf_of_nonascii h hd

theorem isNonascii_of_class {p : Char → Bool} (hp : IsAscii p) {c : Char} (h : p c = true) : isNonascii c = false := by
  cases hc : isNonascii c with
  | false => rfl
  | true => rw [hp c hc] at h; cases h

/-! ## Escapes and blanks -/

theorem bytesIn_terminatorLength (s : Text) : s.bytesIn (terminatorLength s) = terminatorLength s := by
  fun_cases terminatorLength s with
  | case1 r => rfl
  | case2 c r h hc => exact bytesIn_one (isNonascii_of_class isAscii_isWhitespace hc) r
  | case3 c r h hc => rfl
  | case4 => rfl

theorem behind_countUpTo {p : Char → Bool} (hp : IsAscii p) (n : Nat) (s : Text) :
    s.behind (countUpTo n p s) = .ok (s.drop (countUpTo n p s)) := by
  have := behind_bytesIn s (countUpTo n p s)
  rwa [bytesIn_countUpTo hp] at this

theorem escape?_eq (s : Text) : escape? s = .ok ((escapeLength? s).map s.bytesIn) := by
  unfold escape?
  split
  · rename_i first r
    rw [escapeLength?, escapeTail?]
    by_cases hex : isHexDigit first = true
    · rw [if_pos hex, if_pos hex]
      simp only [countBytes_take_utf8 isAscii_isHexDigit, behind_countUpTo isAscii_isHexDigit, ok_bind,
        Option.map_some]
      rw [bytesIn_cons, bytesIn_add, bytesIn_countUpTo isAscii_isHexDigit, bytesIn_terminatorLength, Nat.add_assoc]
      rfl
    · rw [if_neg hex, if_neg hex]
      split
      · rfl
      · rw [Option.map_some, Option.map_some, bytesIn_cons, bytesIn_cons_one]
        rfl
  · rename_i h
    unfold escapeLength?
    split
    · rename_i r
      cases r with
      | nil => rfl
      | cons first r => exact absurd rfl (h first r)
    · rfl

theorem blanks_eq (s : Text) : blanks s = .ok (countWhile isWhitespace s) := by
  have h : byteLength s = countWhile isWhitespace s + byteLength (s.dropWhile isWhitespace) := by
    have hrun : byteLength (s.takeWhile isWhitespace) = countWhile isWhitespace s :=
      byteLength_of_ascii fun c hc => isNonascii_of_mem_takeWhile isAscii_isWhitespace hc
    rw [← hrun, ← byteLength_append, List.takeWhile_append_dropWhile]
  rw [blanks, minus, if_neg (by omega), h, Nat.add_sub_cancel_right]

/-! ## Marks -/

theorem head?_ne_some {s : Text} {c : Char} (h : ∀ t, s = c :: t → False) : s.head? ≠ some c := by
  intro hc
  obtain ⟨t, rfl⟩ := List.head?_eq_some_iff.mp hc
  exact h t rfl

theorem bytesIn_succ {s r : Text} {c : Char} {n : Nat} (h : s.drop n = c :: r) (hc : isNonascii c = false) :
    s.bytesIn (n + 1) = s.bytesIn n + 1 := by
  rw [bytesIn_add, h, bytesIn_one hc]

/-! ## Loops -/

/-- A loop that counts in each turn the bytes of one item of a run. -/
structure Turn.Counts (t : Turn) (item : Item) : Prop where
  nil : t.length? [] = .ok none
  cons : ∀ c r, t.length? (c :: r) = .ok ((item c r).map fun k => bytesIn (c :: r) (1 + k))
  le : ∀ {c : Char} {r : Text} {k : Nat}, item c r = some k → k ≤ r.length

/-- A loop that has counted a whole number of characters ends behind the run that starts there. -/
theorem Turn.loop_bytesIn {t : Turn} {item : Item} (h : t.Counts item) (s : Text) (k : Nat) :
    t.loop s (s.bytesIn k) = .ok (s.bytesIn (k + runLength item (s.drop k))) := by
  -- on the characters not counted yet: what is counted stays the size of a whole number of characters
  induction hn : s.length - k using Nat.strongRecOn generalizing k with
  | _ n ih =>
    rw [loop_eq, behind_bytesIn, ok_bind]
    cases hd : s.drop k with
    | nil =>
      rw [h.nil]
      rfl
    | cons c r =>
      have hlen := congrArg List.length hd
      rw [List.length_drop, List.length_cons] at hlen
      rw [h.cons, runLength_cons]
      cases hitem : item c r with
      | none => rfl
      | some j =>
        have hj := h.le hitem
        have hcount : s.bytesIn k + bytesIn (c :: r) (1 + j) = s.bytesIn (k + (1 + j)) := by
          rw [bytesIn_add s k, hd]
        have hrest : s.drop (k + (1 + j)) = r.drop j := by
          rw [← List.drop_drop, hd, drop_one_add]
        show t.loop s (s.bytesIn k + bytesIn (c :: r) (1 + j)) = _
        rw [hcount, ih _ (by omega) _ rfl, hrest]
        show _ = Except.ok (s.bytesIn (k + (1 + min j r.length + runLength item (r.drop j))))
        rw [Nat.min_eq_left hj, Nat.add_assoc]

theorem Turn.loop_zero {t : Turn} {item : Item} (h : t.Counts item) (s : Text) :
    t.loop s 0 = .ok (s.bytesIn (runLength item s)) := by
  have := t.loop_bytesIn h s 0
  rwa [bytesIn_zero, Nat.zero_add, List.drop_zero] at this

/-! ## Names -/

theorem item?_cons (p : Char → Bool) (c : Char) (r : Text) :
    item? p (c :: r) = .ok ((charOrEscape p c r).map fun k => bytesIn (c :: r) (1 + k)) := by
  rw [item?, charOrEscape]
  split
  · rw [Option.map_some, bytesIn_cons]
    rfl
  · split
    · rename_i hc
      subst hc
      rw [escape?_eq, escapeLength?, Option.map_map]
      rfl
    · rename_i hc
      rw [if_neg (by rwa [beq_iff_eq])]
      rfl

theorem counts_itemTurn (p : Char → Bool) : (itemTurn p).Counts (charOrEscape p) :=
  ⟨rfl, item?_cons p, charOrEscape_le⟩

theorem name_eq (s : Text) : name s = .ok (s.bytesIn (nameLength s)) := (itemTurn isNameChar).loop_zero
  (counts_itemTurn isNameChar) s

theorem identBehind?_eq (dash : Nat) (s : Text) :
    identBehind? dash s = .ok ((startedNameLength? s).map fun n => dash + s.bytesIn n) := by
  cases s with
  | nil => rfl
  | cons c r =>
    rw [identBehind?, item?_cons, startedNameLength?, ok_bind]
    cases charOrEscape isNameStart c r with
    | none => rfl
    | some k =>
      simp only [Option.map_some, behind_bytesIn, name_eq, ok_bind, drop_one_add]
      rw [bytesIn_add (c :: r) (1 + k), drop_one_add, Nat.add_assoc]
      rfl

theorem ident?_eq (s : Text) : ident? s = .ok ((identLength? s).map s.bytesIn) := by
  unfold identLength?
  split
  · rename_i r
    have hcut : Text.behind ('-' :: r) 1 = .ok r := behind_bytesIn ('-' :: r) 1
    rw [ident?, List.head?_cons, if_pos rfl, hcut, ok_bind, identBehind?_eq, Option.map_map]
    congr 2
    funext n
    rw [Function.comp_apply, bytesIn_cons]
    rfl
  · rename_i hne
    rw [ident?, if_neg (head?_ne_some hne), behind_zero, ok_bind, identBehind?_eq]
    congr 2
    funext n
    exact Nat.zero_add _

/-! ## Numbers -/

section Marked

variable {mark : Char} {count : Text → Nat} (hmark : isNonascii mark = false)
include hmark

theorem bytesIn_markedLength (hcount : ∀ r, bytesIn r (count r) = count r) (s : Text) :
    s.bytesIn (markedLength mark count s) = markedLength mark count s := by
  cases s with
  | nil => rfl
  | cons c r =>
    rw [markedLength]
    split
    · rename_i hc
      split
      · rfl
      · rw [bytesIn_cons, hcount, hc, utf8Size_of_ascii hmark]
    · rfl

theorem marked_bytesIn (bytes : List UInt8 → Nat) (hbytes : ∀ r, bytes (utf8 r) = count r) (s : Text) (k : Nat) :
    marked mark bytes s (s.bytesIn k) = markedLength mark count (s.drop k) := by
  rw [marked, any_getElem?_bytesIn (isAscii_beq hmark)]
  cases hd : s.drop k with
  | nil => rfl
  | cons c r =>
    rw [List.head?_cons, Option.any_some, markedLength]
    by_cases hc : c = mark
    · subst hc
      have hrest : s.drop (k + 1) = r := by rw [← List.drop_drop, hd]; rfl
      rw [if_pos (beq_self_eq_true c), if_pos rfl, ← bytesIn_succ hd hmark, drop_utf8_bytesIn, hrest, hbytes]
      cases count r <;> rfl
    · rw [if_neg (by rwa [beq_iff_eq]), if_neg hc]

end Marked

theorem bytesIn_fractionLength (s : Text) : s.bytesIn (fractionLength s) = fractionLength s := by
  rw [fractionLength_eq]
  exact bytesIn_markedLength (by decide) (bytesIn_countWhile isAscii_isDigit) s

theorem bytesIn_upperBoundLength (s : Text) : s.bytesIn (upperBoundLength s) = upperBoundLength s := by
  rw [upperBoundLength_eq]
  exact bytesIn_markedLength (by decide) (bytesIn_countUpTo isAscii_isHexDigit 6) s

theorem bytesIn_numberLength? {s : Text} {n : Nat} (h : numberLength? s = some n) : s.bytesIn n = n := by
  have hn : n = countWhile isDigit s + fractionLength (s.drop (countWhile isDigit s)) := by
    simp only [numberLength?] at h
    split at h
    · cases h
    · rename_i heq
      cases h
      exact heq.symm
  rw [hn, bytesIn_add, bytesIn_countWhile isAscii_isDigit, bytesIn_fractionLength]

theorem number?_eq (s : Text) : number? s = numberLength? s := by
  have hmarked := marked_bytesIn (by decide : isNonascii '.' = false) (countBytes isDigit)
    (countBytes_utf8 isAscii_isDigit) s (countWhile isDigit s)
  rw [bytesIn_countWhile isAscii_isDigit, ← fractionLength_eq] at hmarked
  simp only [number?, numberLength?, countBytes_utf8 isAscii_isDigit, hmarked]
  cases countWhile isDigit s + fractionLength (s.drop (countWhile isDigit s)) <;> rfl

/-! ## Strings -/

theorem newlineLength_cons {c : Char} {r : Text} (hcr : ¬ (c = '\r' ∧ r.head? = some '\n')) :
    newlineLength (c :: r) = if isNewline c then 1 else 0 := by
  rw [newlineLength]
  rintro t rfl rfl
  exact hcr ⟨rfl, rfl⟩

theorem escapeTail?_of_isNewline {c : Char} (h : isNewline c = true) (r : Text) : escapeTail? (c :: r) = none := by
  have hex : ¬ isHexDigit c = true := fun hex => by rw [isNewline_of_isHexDigit hex] at h; cases h
  rw [escapeTail?, if_neg hex, if_pos h]

theorem afterBackslash_eq (r : Text) :
    afterBackslash ('\\' :: r) = .ok (bytesIn ('\\' :: r) (1 + (escapeTail? r).getD (newlineLength r))) := by
  have hcut : Text.behind ('\\' :: r) 1 = .ok r := behind_bytesIn ('\\' :: r) 1
  rw [afterBackslash, hcut, ok_bind]
  cases r with
  | nil => rfl
  | cons c r =>
    dsimp only
    by_cases hcr : c = '\r' ∧ r.head? = some '\n'
    · obtain ⟨rfl, hr⟩ := hcr
      obtain ⟨t, rfl⟩ := List.head?_eq_some_iff.mp hr
      rfl
    rw [if_neg hcr, newlineLength_cons hcr]
    cases hc : isNewline c with
    | true =>
      rw [if_pos rfl, if_pos rfl, escapeTail?_of_isNewline hc, Option.getD_none, bytesIn_cons,
        bytesIn_one (isNonascii_of_class isAscii_isNewline hc)]
      rfl
    | false =>
      have htail : ∃ n, escapeTail? (c :: r) = some n := by
        rw [escapeTail?, hc]
        split <;> exact ⟨_, rfl⟩
      obtain ⟨n, hn⟩ := htail
      rw [escape?_eq, escapeLength?, hn]
      rfl

theorem quoted?_cons (quote c : Char) (r : Text) :
    quoted? quote (c :: r) = .ok ((quotedItem quote c r).map fun k => bytesIn (c :: r) (1 + k)) := by
  rw [quoted?, quotedItem]
  by_cases hq : c = quote
  · have hq' : (c == quote) = true := beq_iff_eq.mpr hq
    rw [if_pos hq, if_pos hq']
    rfl
  by_cases hb : c = '\\'
  · have hq' : ¬ (c == quote) = true := by rwa [beq_iff_eq]
    subst hb
    rw [if_neg hq, if_pos rfl, if_neg hq', if_pos (beq_self_eq_true '\\'), afterBackslash_eq]
    rfl
  · have hq' : ¬ (c == quote) = true := by rwa [beq_iff_eq]
    have hb' : ¬ (c == '\\') = true := by rwa [beq_iff_eq]
    rw [if_neg hq, if_neg hb, if_neg hq', if_neg hb']
    split
    · rfl
    · rw [Option.map_some, bytesIn_cons]
      rfl

theorem counts_quotedTurn (quote : Char) : (quotedTurn quote).Counts (quotedItem quote) :=
  ⟨rfl, quoted?_cons quote, quotedItem_le⟩

theorem quotation?_eq (s : Text) :
    quotation? s = .ok ((CssLexer.quotation? s).map fun q => (s.bytesIn q.1, q.2)) := by
  cases s with
  | nil => rfl
  | cons quote r =>
    rw [quotation?, CssLexer.quotation?]
    by_cases hq : isQuote quote = true
    · have hascii : isNonascii quote = false := isNonascii_of_class isAscii_isQuote hq
      have hloop := (quotedTurn quote).loop_bytesIn (counts_quotedTurn quote) (quote :: r) 1
      rw [bytesIn_one hascii, List.drop_one, List.tail_cons] at hloop
      rw [if_pos hq, if_pos hq, hloop, ok_bind, behind_bytesIn, ok_bind, drop_one_add]
      dsimp only
      by_cases hclosed : (r.drop (runLength (quotedItem quote) r)).head? = some quote
      · obtain ⟨t, ht⟩ := List.head?_eq_some_iff.mp hclosed
        rw [if_pos hclosed, if_pos hclosed, Option.map_some, bytesIn_succ ((drop_one_add quote r _).trans ht) hascii]
        rfl
      · rw [if_neg hclosed, if_neg hclosed]
        rfl
    · rw [if_neg hq, if_neg hq]
      rfl

/-! ## Urls -/

theorem closeUrl_eq (s : Text) (n : Nat) :
    closeUrl s (s.bytesIn n) = .ok ((Lexeme.closeUrl n (s.drop n)).extent s) := by
  have hlen : s.bytesIn n + countWhile isWhitespace (s.drop n) =
      s.bytesIn (n + countWhile isWhitespace (s.drop n)) := by
    rw [bytesIn_add, bytesIn_countWhile isAscii_isWhitespace]
  simp only [closeUrl, behind_bytesIn, ok_bind, blanks_eq, hlen, Lexeme.closeUrl, List.drop_drop]
  by_cases hclosed : (s.drop (n + countWhile isWhitespace (s.drop n))).head? = some ')'
  · obtain ⟨r, hr⟩ := List.head?_eq_some_iff.mp hclosed
    rw [if_pos hclosed, hr, ← bytesIn_succ hr (by decide)]
    rfl
  · rw [if_neg hclosed]
    split
    · rename_i r hr
      exact absurd (by rw [hr]; rfl) hclosed
    · rfl

theorem drop_of_afterUrlOpening? {s rest : Text} (h : afterUrlOpening? s = some rest) :
    opensUrl s = true ∧ s.drop 4 = rest ∧ s.bytesIn 4 = 4 := by
  unfold afterUrlOpening? at h
  split at h
  · rename_i u r l tail
    split at h
    · rename_i hletters
      cases h
      rw [Bool.and_eq_true, Bool.and_eq_true] at hletters
      obtain ⟨⟨hu, hr⟩, hl⟩ := hletters
      have hbytes : bytesIn (u :: r :: l :: '(' :: rest) 4 = 4 := by
        rw [show 4 = 1 + (1 + (1 + 1)) from rfl, bytesIn_cons, bytesIn_cons, bytesIn_cons, bytesIn_cons_one,
          utf8Size_of_ascii (isNonascii_of_class (isAscii_isLetterOf (by decide)) hu),
          utf8Size_of_ascii (isNonascii_of_class (isAscii_isLetterOf (by decide)) hr),
          utf8Size_of_ascii (isNonascii_of_class (isAscii_isLetterOf (by decide)) hl)]
        rfl
      have hchars : charsIn? (u :: r :: l :: '(' :: rest) 4 = some 4 :=
        charsIn?_eq_some_iff.mpr ⟨by simp, hbytes⟩
      refine ⟨?_, rfl, hbytes⟩
      rw [isLetterOf, beq_iff_eq] at hu hr hl
      rw [opensUrl, hchars, Option.any_some]
      simp [hu, hr, hl]
    · cases h
  · cases h

theorem isSome_afterUrlOpening? {s : Text} (h : opensUrl s = true) : (afterUrlOpening? s).isSome = true := by
  rw [opensUrl, Option.any_eq_true] at h
  obtain ⟨k, -, hk⟩ := h
  rw [beq_iff_eq] at hk
  obtain ⟨u, t, hs, hu, ht⟩ := List.map_eq_cons_iff.mp hk
  obtain ⟨r, t, rfl, hr, ht⟩ := List.map_eq_cons_iff.mp ht
  obtain ⟨l, t, rfl, hl, ht⟩ := List.map_eq_cons_iff.mp ht
  obtain ⟨opening, t, rfl, ho, ht⟩ := List.map_eq_cons_iff.mp ht
  rw [← List.take_append_drop k s, hs, eq_parenthesis_of_toLower ho]
  simp [afterUrlOpening?, isLetterOf, hu, hr, hl]

theorem uri?_eq (s : Text) : uri? s = .ok ((Lexeme.uri? s).map (·.extent s)) := by
  rw [uri?, Lexeme.uri?]
  cases hopen : afterUrlOpening? s with
  | none =>
    have hnot : ¬ opensUrl s = true := by
      intro h
      have := isSome_afterUrlOpening? h
      rw [hopen] at this
      cases this
    rw [if_neg hnot]
    rfl
  | some rest =>
    obtain ⟨hopens, hrest, hfour⟩ := drop_of_afterUrlOpening? hopen
    have hcut := behind_bytesIn s 4
    rw [hfour, hrest] at hcut
    have hlen : 4 + countWhile isWhitespace rest = s.bytesIn (4 + countWhile isWhitespace rest) := by
      rw [bytesIn_add, hfour, hrest, bytesIn_countWhile isAscii_isWhitespace]
    have hbody : s.drop (4 + countWhile isWhitespace rest) = rest.drop (countWhile isWhitespace rest) := by
      rw [← List.drop_drop, hrest]
    -- the lengths found in the body, as lengths in the whole text
    have hsum : ∀ n, s.bytesIn (4 + countWhile isWhitespace rest) +
        bytesIn (rest.drop (countWhile isWhitespace rest)) n = s.bytesIn (4 + countWhile isWhitespace rest + n) := by
      intro n
      rw [bytesIn_add s (_ + _), hbody]
    have hclose : ∀ n, closeUrl s (s.bytesIn (4 + countWhile isWhitespace rest + n)) =
        .ok ((Lexeme.closeUrl (4 + countWhile isWhitespace rest + n)
          ((rest.drop (countWhile isWhitespace rest)).drop n)).extent s) := by
      intro n
      rw [closeUrl_eq, ← List.drop_drop, hbody]
    rw [if_pos hopens, hcut, ok_bind, blanks_eq, ok_bind]
    dsimp only
    rw [hlen, behind_bytesIn, ok_bind, hbody, ← isSome_quotation?, quotation?_eq, ok_bind, Option.map_some]
    cases hq : CssLexer.quotation? (rest.drop (countWhile isWhitespace rest)) with
    | none =>
      rw [if_neg (by decide), (itemTurn isUrlChar).loop_zero (counts_itemTurn isUrlChar), ok_bind, hsum, hclose]
      rfl
    | some found =>
      obtain ⟨n, closed⟩ := found
      rw [if_pos Option.isSome_some, Option.map_some]
      cases closed with
      | false =>
        dsimp only
        rw [hsum]
        rfl
      | true =>
        dsimp only
        rw [hsum, hclose]
        rfl

/-! ## Ranges of code points -/

theorem unicodeRange?_cons {u : Char} (hu : isLetterOf 'u' u = true) (r : Text) :
    unicodeRange? (u :: '+' :: r) = .ok ((Lexeme.unicodeRange? (u :: '+' :: r)).map (·.extent (u :: '+' :: r))) := by
  have htwo : bytesIn (u :: '+' :: r) 2 = 2 := by
    rw [show 2 = 1 + 1 from rfl, bytesIn_cons, bytesIn_cons_one,
      utf8Size_of_ascii (isNonascii_of_class (isAscii_isLetterOf (by decide)) hu)]
    rfl
  have hdigits : bytesIn (u :: '+' :: r) (2 + countUpTo 6 isHexDigit r) = 2 + countUpTo 6 isHexDigit r := by
    rw [bytesIn_add, htwo]
    exact congrArg (2 + ·) (bytesIn_countUpTo isAscii_isHexDigit 6 r)
  have hrest : (u :: '+' :: r).drop (2 + countUpTo 6 isHexDigit r) = r.drop (countUpTo 6 isHexDigit r) := by
    rw [← List.drop_drop]
    rfl
  -- what is behind the opening and behind the digits, looked up by bytes
  have hopening := drop_utf8_bytesIn (u :: '+' :: r) 2
  have hbehind := drop_utf8_bytesIn (u :: '+' :: r) (2 + countUpTo 6 isHexDigit r)
  have hmarked := marked_bytesIn (by decide : isNonascii '-' = false) (fun b => countBytes isHexDigit (b.take 6))
    (countBytes_take_utf8 isAscii_isHexDigit 6) (u :: '+' :: r) (2 + countUpTo 6 isHexDigit r)
  rw [htwo, List.drop_succ_cons, List.drop_succ_cons, List.drop_zero] at hopening
  rw [hdigits, hrest] at hbehind
  rw [hdigits, hrest, ← upperBoundLength_eq] at hmarked
  have hsix : ¬ 6 < countUpTo 6 isHexDigit r := Nat.not_lt.mpr (countUpTo_le_limit 6 isHexDigit r)
  rw [unicodeRange?, Lexeme.unicodeRange?, if_pos hu]
  dsimp only
  rw [any_two_utf8 (isAscii_isLetterOf (by decide)) (isAscii_beq (by decide)), if_pos (by simp [hu]), hopening,
    countBytes_take_utf8 isAscii_isHexDigit, minus, if_neg hsix, ok_bind, hbehind,
    countBytes_take_utf8 (isAscii_beq (by decide))]
  by_cases hnone : countUpTo 6 isHexDigit r +
      countUpTo (6 - countUpTo 6 isHexDigit r) (· == '?') (r.drop (countUpTo 6 isHexDigit r)) = 0
  · rw [if_pos hnone, if_pos hnone]
    rfl
  rw [if_neg hnone, if_neg hnone]
  by_cases hmarks : countUpTo (6 - countUpTo 6 isHexDigit r) (· == '?') (r.drop (countUpTo 6 isHexDigit r)) = 0
  · rw [if_pos hmarks, if_pos hmarks, hmarks, Nat.add_zero, hmarked, Option.map_some, Lexeme.extent]
    dsimp only
    rw [bytesIn_add _ (2 + _), hdigits, hrest, bytesIn_upperBoundLength]
    rfl
  · rw [if_neg hmarks, if_neg hmarks, Option.map_some, Lexeme.extent]
    dsimp only
    rw [bytesIn_add _ (2 + _), hdigits, hrest, bytesIn_countUpTo (isAscii_beq (by decide))]
    rfl

theorem unicodeRange?_eq (s : Text) : unicodeRange? s = .ok ((Lexeme.unicodeRange? s).map (·.extent s)) := by
  by_cases hopening : (s.head?.any (isLetterOf 'u') && s.tail.head?.any (· == '+')) = true
  · rw [Bool.and_eq_true, Option.any_eq_true, Option.any_eq_true] at hopening
    obtain ⟨⟨u, hhead, hu⟩, ⟨plus, hnext, hplus⟩⟩ := hopening
    obtain ⟨t, rfl⟩ := List.head?_eq_some_iff.mp hhead
    obtain ⟨r, rfl⟩ := List.head?_eq_some_iff.mp hnext
    rw [beq_iff_eq.mp hplus]
    exact unicodeRange?_cons hu r
  · have hnone : Lexeme.unicodeRange? s = none := by
      unfold Lexeme.unicodeRange?
      split
      · rename_i u r
        rw [if_neg fun hu => hopening (by simp [hu])]
      · rfl
    rw [hnone, unicodeRange?]
    dsimp only
    rw [any_two_utf8 (isAscii_isLetterOf (by decide)) (isAscii_beq (by decide)), if_neg hopening]
    rfl

/-! ## Marks by their first characters -/

/-- The first `*/` is where the body of a comment ends. -/
theorem find?_commentEnd (s : Text) :
    find? ['*', '/'] s =
      if s.drop (runLength commentItem s) = [] then none else some (s.bytesIn (runLength commentItem s)) := by
  induction s with
  | nil => rfl
  | cons c r ih =>
    by_cases hc : (c == '*' && r.head? == some '/') = true
    · rw [runLength_cons, commentItem, if_pos hc]
      rw [Bool.and_eq_true, beq_iff_eq, beq_iff_eq] at hc
      obtain ⟨rfl, hr⟩ := hc
      obtain ⟨t, rfl⟩ := List.head?_eq_some_iff.mp hr
      rfl
    · have hnot : ¬ ['*', '/'].isPrefixOf (c :: r) = true := by
        intro h
        obtain ⟨t, ht⟩ := List.isPrefixOf_iff_prefix.mp h
        cases ht
        exact hc rfl
      rw [find?, if_neg hnot, ih, commentBody_cons hc, drop_one_add, bytesIn_cons]
      split <;> rfl

theorem comment?_eq (s : Text) : comment? s = (Lexeme.comment? s).map (·.extent s) := by
  unfold Lexeme.comment?
  split
  · rename_i r
    rw [comment?, if_pos (by simp), List.drop_succ_cons, List.drop_succ_cons, List.drop_zero, find?_commentEnd]
    dsimp only
    obtain hend | ⟨t, ht⟩ := drop_commentBody r
    · have hall : bytesIn ('/' :: '*' :: r) (2 + runLength commentItem r) = byteLength ('/' :: '*' :: r) := by
        apply bytesIn_of_length_le
        have := List.drop_eq_nil_iff.mp hend
        simp only [List.length_cons]
        omega
      rw [if_pos hend, hend, Option.map_some, Lexeme.extent, hall]
    · have hbytes : bytesIn ('/' :: '*' :: r) (2 + runLength commentItem r + 2) =
          2 + bytesIn r (runLength commentItem r) + 2 := by
        have hrest : ('/' :: '*' :: r).drop (2 + runLength commentItem r) = '*' :: '/' :: t := by
          rw [← List.drop_drop]
          exact ht
        rw [bytesIn_add, hrest, bytesIn_add]
        rfl
      rw [if_neg (by rw [ht]; exact List.cons_ne_nil _ _), ht, Option.map_some, Lexeme.extent, hbytes]
  · rename_i hne
    rw [comment?, if_neg]
    · rfl
    · intro h
      obtain ⟨t, ht⟩ := List.isPrefixOf_iff_prefix.mp h
      exact hne t ht.symm

theorem space?_eq (s : Text) : space? s = .ok ((Lexeme.space? s).map (·.extent s)) := by
  have hbytes := bytesIn_countWhile isAscii_isWhitespace s
  rw [space?, blanks_eq, ok_bind, Lexeme.space?]
  cases hn : countWhile isWhitespace s with
  | zero => rfl
  | succ n =>
    rw [hn] at hbytes
    rw [Option.map_some, Lexeme.extent, hbytes]
    rfl

theorem string?_eq (s : Text) : string? s = .ok ((Lexeme.string? s).map (·.extent s)) := by
  rw [string?, quotation?_eq, ok_bind, Lexeme.string?, Option.map_map]
  cases CssLexer.quotation? s <;> rfl

theorem embedding?_eq (s : Text) : embedding? s = (Lexeme.embedding? s).map (·.extent s) := by
  unfold Lexeme.embedding?
  split
  · rfl
  · rfl
  · rename_i hopen hclose
    rw [embedding?, if_neg, if_neg]
    · rfl
    · intro h
      obtain ⟨t, ht⟩ := List.isPrefixOf_iff_prefix.mp h
      exact hclose t ht.symm
    · intro h
      obtain ⟨t, ht⟩ := List.isPrefixOf_iff_prefix.mp h
      exact hopen t ht.symm

theorem attributeOperator?_eq (s : Text) : attributeOperator? s = (Lexeme.attributeOperator? s).map (·.extent s) := by
  have hlookup : ∀ o ∈ operators, (s.utf8[0]?.any (byteIs (· == o.1)) && s.utf8[1]?.any (byteIs (· == '='))) =
      (s.head?.any (· == o.1) && s.tail.head?.any (· == '=')) := by
    intro o ho
    have hascii : isNonascii o.1 = false := by revert o; decide
    exact any_two_utf8 (isAscii_beq hascii) (isAscii_beq (by decide)) s
  rw [attributeOperator?, ← List.head?_filter, List.filter_congr hlookup, List.head?_filter]
  unfold Lexeme.attributeOperator?
  split
  · rfl
  · rfl
  · rfl
  · rfl
  · rfl
  · rename_i h1 h2 h3 h4 h5
    rw [List.find?_eq_none.mpr]
    · rfl
    · intro o ho hmarks
      rw [Bool.and_eq_true, Option.any_eq_true, Option.any_eq_true] at hmarks
      obtain ⟨⟨c, hhead, hc⟩, ⟨d, hnext, hd⟩⟩ := hmarks
      obtain ⟨t, rfl⟩ := List.head?_eq_some_iff.mp hhead
      obtain ⟨r, rfl⟩ := List.head?_eq_some_iff.mp hnext
      obtain rfl := beq_iff_eq.mp hc
      obtain rfl := beq_iff_eq.mp hd
      simp only [operators, List.mem_cons, List.not_mem_nil, or_false] at ho
      rcases ho with rfl | rfl | rfl | rfl | rfl
      · exact h1 r rfl
      · exact h2 r rfl
      · exact h3 r rfl
      · exact h4 r rfl
      · exact h5 r rfl

theorem numeric?_eq (s : Text) : numeric? s = .ok ((Lexeme.numeric? s).map (·.extent s)) := by
  rw [numeric?, number?_eq, Lexeme.numeric?]
  cases hn : numberLength? s with
  | none => rfl
  | some n =>
    have hbytes := bytesIn_numberLength? hn
    have hcut := behind_bytesIn s n
    rw [hbytes] at hcut
    dsimp only
    rw [hcut, ok_bind, Option.map_some, Option.map_some]
    by_cases hpercent : (s.drop n).head? = some '%'
    · obtain ⟨t, ht⟩ := List.head?_eq_some_iff.mp hpercent
      have hnext := bytesIn_succ ht (by decide)
      rw [hbytes] at hnext
      rw [if_pos hpercent, ht]
      show _ = Except.ok (some (Lexeme.extent s ⟨.percentage, n + 1⟩))
      rw [Lexeme.extent, hnext]
      rfl
    · rw [if_neg hpercent, ident?_eq, ok_bind]
      cases hunit : identLength? (s.drop n) with
      | none =>
        dsimp only [Option.map_none]
        split
        · rename_i t ht
          exact absurd (by rw [ht]; rfl) hpercent
        · rw [hunit, Lexeme.extent, hbytes]
          rfl
      | some k =>
        dsimp only [Option.map_some]
        split
        · rename_i t ht
          exact absurd (by rw [ht]; rfl) hpercent
        · rw [hunit, Lexeme.extent, bytesIn_add, hbytes]
          rfl

theorem hash?_eq (s : Text) : hash? s = .ok ((Lexeme.hash? s).map (·.extent s)) := by
  unfold Lexeme.hash?
  split
  · rename_i r
    rw [hash?, name_eq, ok_bind]
    cases hn : nameLength r with
    | zero => rfl
    | succ n =>
      have hle : n + 1 ≤ bytesIn r (n + 1) := by
        apply le_bytesIn
        rw [← hn]
        exact runLength_le _ _
      obtain ⟨m, hm⟩ : ∃ m, bytesIn r (n + 1) = m + 1 := ⟨bytesIn r (n + 1) - 1, by omega⟩
      show _ = Except.ok (some (Lexeme.extent ('#' :: r) ⟨.hash, 1 + (n + 1)⟩))
      rw [Lexeme.extent, bytesIn_cons, hm]
      rfl
  · rename_i hne
    unfold hash?
    split
    · rename_i r
      exact absurd rfl (hne r)
    · rfl

theorem identLike?_eq (s : Text) : identLike? s = .ok ((Lexeme.identLike? s).map (·.extent s)) := by
  unfold Lexeme.identLike?
  split
  · rename_i r
    rw [identLike?, ident?_eq, ok_bind]
    cases identLength? r with
    | none => rfl
    | some n =>
      simp only [Option.map_some, Lexeme.extent, bytesIn_cons]
      rfl
  · rename_i hne
    rw [identLike?, ident?_eq, ok_bind]
    · cases identLength? s with
      | none => rfl
      | some n =>
        dsimp only [Option.map_some]
        rw [behind_bytesIn, ok_bind]
        by_cases hopening : (s.drop n).head? = some '('
        · obtain ⟨t, ht⟩ := List.head?_eq_some_iff.mp hopening
          rw [if_pos hopening, ht, ← bytesIn_succ ht (by decide)]
          rfl
        · rw [if_neg hopening]
          split
          · rename_i t ht
            exact absurd (by rw [ht]; rfl) hopening
          · rfl
    · exact hne

theorem delim?_eq (s : Text) : delim? s = (Lexeme.delim? s).map (·.extent s) := by
  cases s with
  | nil => rfl
  | cons c r =>
    rw [delim?, Lexeme.delim?]
    split
    · rfl
    · rw [Option.map_some, Lexeme.extent, bytesIn_cons_one]

end Extent

/-! ## Every production -/

namespace Production

/-- By bytes, no production misses, and each finds what it finds by characters. -/
theorem extent?_eq (p : Production) (s : Text) : p.extent? s = .ok ((p.lexeme? s).map (·.extent s)) := by
  cases p with
  | comment => exact congrArg Except.ok (Extent.comment?_eq s)
  | whitespace => exact Extent.space?_eq s
  | string => exact Extent.string?_eq s
  | uri => exact Extent.uri?_eq s
  | unicodeRange => exact Extent.unicodeRange?_eq s
  | embedding => exact congrArg Except.ok (Extent.embedding?_eq s)
  | attributeOperator => exact congrArg Except.ok (Extent.attributeOperator?_eq s)
  | numeric => exact Extent.numeric?_eq s
  | hash => exact Extent.hash?_eq s
  | identLike => exact Extent.identLike?_eq s
  | delim => exact congrArg Except.ok (Extent.delim?_eq s)

/-- What a production finds has at least one byte, stays inside its text and ends behind a character. -/
theorem extent_bounds {p : Production} {s : Text} {l : Lexeme} (h : p.lexeme? s = some l) :
    1 ≤ (l.extent s).bytes ∧ (l.extent s).bytes ≤ s.byteLength ∧ s.charsIn? (l.extent s).bytes = some l.length := by
  have hle := lexeme?_length_le h
  refine ⟨?_, s.bytesIn_le l.length, Text.charsIn?_eq_some_iff.mpr ⟨hle, rfl⟩⟩
  exact Nat.le_trans (lexeme?_length_pos h) (Text.le_bytesIn hle)

end Production

end CssLexer
