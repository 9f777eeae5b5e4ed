/-
  CssLexer.Proofs.Bounds — no lexeme runs past the end of its text.

  Proved: the bound for every count and every run a production takes, and with them `lexeme?_length_le`; a lexeme is
  then exactly the characters it is said to take, never what happens to be left.
-/

import CssLexer.Production
import Mathlib.Data.List.TakeWhile

namespace CssLexer

/-! ## Runs -/

theorem countWhile_le (p : Char → Bool) (s : Text) : countWhile p s ≤ s.length := (List.takeWhile_prefix p).length_le

theorem of_mem_take_countWhile {p : Char → Bool} {s : Text} {c : Char} (h : c ∈ s.take (countWhile p s)) :
    p c = true := by
  rw [countWhile, ← List.prefix_iff_eq_take.mp (List.takeWhile_prefix p)] at h
  exact List.mem_takeWhile_imp h

theorem takeWhile_take_eq (n : Nat) (p : Char → Bool) (s : Text) :
    (s.take n).takeWhile p = s.take (countUpTo n p s) := by
  have hprefix : (s.take n).takeWhile p <+: s := (List.takeWhile_prefix p).trans (List.take_prefix n s)
  exact List.prefix_iff_eq_take.mp hprefix

theorem of_mem_take_countUpTo {n : Nat} {p : Char → Bool} {s : Text} {c : Char} (h : c ∈ s.take (countUpTo n p s)) :
    p c = true := by
  rw [← takeWhile_take_eq] at h
  exact List.mem_takeWhile_imp h

theorem countUpTo_le (n : Nat) (p : Char → Bool) (s : Text) : countUpTo n p s ≤ s.length := by
  have := countWhile_le p (s.take n)
  rw [List.length_take] at this
  exact Nat.le_trans this (Nat.min_le_right _ _)

theorem countUpTo_le_limit (n : Nat) (p : Char → Bool) (s : Text) : countUpTo n p s ≤ n := by
  have := countWhile_le p (s.take n)
  rw [List.length_take] at this
  exact Nat.le_trans this (Nat.min_le_left _ _)

theorem drop_one_add (c : Char) (r : Text) (k : Nat) : (c :: r).drop (1 + k) = r.drop k := by
  rw [Nat.add_comm, List.drop_succ_cons]

theorem runLength_le (item : Item) (s : Text) : runLength item s ≤ s.length := by
  induction hn : s.length using Nat.strongRecOn generalizing s with
  | _ n ih =>
    cases s with
    | nil => simp
    | cons c r =>
      rw [List.length_cons] at hn
      rw [runLength_cons]
      split
      · exact Nat.zero_le _
      · rename_i k _
        have := ih (r.drop k).length (by rw [List.length_drop]; omega) (r.drop k) rfl
        rw [List.length_drop] at this
        show 1 + min k r.length + runLength item (r.drop k) ≤ n
        omega

theorem commentBody_cons {c : Char} {r : Text} (h : ¬ (c == '*' && r.head? == some '/') = true) :
    runLength commentItem (c :: r) = 1 + runLength commentItem r := by
  rw [runLength_cons, commentItem, if_neg h]
  simp only [Nat.zero_min, Nat.add_zero, List.drop_zero]

/-- The body of a comment ends at the end of the text or before a `*/`. -/
theorem drop_commentBody (s : Text) :
    s.drop (runLength commentItem s) = [] ∨ ∃ t, s.drop (runLength commentItem s) = '*' :: '/' :: t := by
  induction s with
  | nil => exact .inl rfl
  | cons c r ih =>
    by_cases hc : (c == '*' && r.head? == some '/') = true
    · rw [runLength_cons, commentItem, if_pos hc]
      rw [Bool.and_eq_true, beq_iff_eq, beq_iff_eq] at hc
      obtain ⟨rfl, hr⟩ := hc
      obtain ⟨t, rfl⟩ := List.head?_eq_some_iff.mp hr
      exact .inr ⟨t, rfl⟩
    · rw [commentBody_cons hc, drop_one_add]
      exact ih

/-! ## Escapes and names -/

theorem terminatorLength_le (s : Text) : terminatorLength s ≤ s.length := by
  fun_cases terminatorLength s <;> simp

theorem newlineLength_le (s : Text) : newlineLength s ≤ s.length := by
  fun_cases newlineLength s <;> simp

theorem escapeTail?_le {r : Text} {n : Nat} (h : escapeTail? r = some n) : n ≤ r.length := by
  cases r with
  | nil => cases h
  | cons c r =>
    simp only [escapeTail?] at h
    split at h
    · cases h
      have h1 := countUpTo_le 6 isHexDigit (c :: r)
      have h2 := terminatorLength_le ((c :: r).drop (countUpTo 6 isHexDigit (c :: r)))
      rw [List.length_drop] at h2
      omega
    · split at h
      · cases h
      · cases h
        simp

theorem charOrEscape_le {p : Char → Bool} {c : Char} {r : Text} {n : Nat} (h : charOrEscape p c r = some n) :
    n ≤ r.length := by
  unfold charOrEscape at h
  split at h
  · cases h
    exact Nat.zero_le _
  · split at h
    · exact escapeTail?_le h
    · cases h

theorem startedNameLength?_le {s : Text} {n : Nat} (h : startedNameLength? s = some n) : n ≤ s.length := by
  cases s with
  | nil => cases h
  | cons c r =>
    rw [startedNameLength?, Option.map_eq_some_iff] at h
    obtain ⟨k, hk, rfl⟩ := h
    have h1 := charOrEscape_le hk
    have h2 : nameLength (r.drop k) ≤ _ := runLength_le _ _
    rw [List.length_drop] at h2
    rw [List.length_cons]
    omega

theorem identLength?_le {s : Text} {n : Nat} (h : identLength? s = some n) : n ≤ s.length := by
  unfold identLength? at h
  split at h
  · rw [Option.map_eq_some_iff] at h
    obtain ⟨k, hk, rfl⟩ := h
    have := startedNameLength?_le hk
    rw [List.length_cons]
    omega
  · exact startedNameLength?_le h

/-! ## Numbers, strings and ranges -/

/-- The length of the character `mark` and what `count` counts behind it; zero if that is nothing. -/
def markedLength (mark : Char) (count : Text → Nat) : Text → Nat
  | [] => 0
  | c :: r => if c = mark then (if count r = 0 then 0 else 1 + count r) else 0

theorem fractionLength_eq (s : Text) : fractionLength s = markedLength '.' (countWhile isDigit) s := by
  fun_cases fractionLength s with
  | case1 r h => rw [markedLength, if_pos rfl, if_pos h]
  | case2 r h => rw [markedLength, if_pos rfl, if_neg h]
  | case3 s h =>
    cases s with
    | nil => rfl
    | cons c r => rw [markedLength, if_neg fun hc => h r (by rw [hc])]

theorem upperBoundLength_eq (s : Text) : upperBoundLength s = markedLength '-' (countUpTo 6 isHexDigit) s := by
  fun_cases upperBoundLength s with
  | case1 r h => rw [markedLength, if_pos rfl, if_pos h]
  | case2 r h => rw [markedLength, if_pos rfl, if_neg h]
  | case3 s h =>
    cases s with
    | nil => rfl
    | cons c r => rw [markedLength, if_neg fun hc => h r (by rw [hc])]

theorem markedLength_le {count : Text → Nat} (h : ∀ r, count r ≤ r.length) (mark : Char) (s : Text) :
    markedLength mark count s ≤ s.length := by
  cases s with
  | nil => exact Nat.le_refl _
  | cons c r =>
    have := h r
    rw [markedLength, List.length_cons]
    split
    · split <;> omega
    · exact Nat.zero_le _

theorem fractionLength_le (s : Text) : fractionLength s ≤ s.length := by
  rw [fractionLength_eq]
  exact markedLength_le (countWhile_le isDigit) '.' s

theorem upperBoundLength_le (s : Text) : upperBoundLength s ≤ s.length := by
  rw [upperBoundLength_eq]
  exact markedLength_le (countUpTo_le 6 isHexDigit) '-' s

theorem numberLength?_le {s : Text} {n : Nat} (h : numberLength? s = some n) : n ≤ s.length := by
  have h1 := countWhile_le isDigit s
  have h2 := fractionLength_le (s.drop (countWhile isDigit s))
  rw [List.length_drop] at h2
  simp only [numberLength?] at h
  split at h
  · cases h
  · cases h
    omega

theorem quotedItem_le {quote c : Char} {r : Text} {k : Nat} (h : quotedItem quote c r = some k) : k ≤ r.length := by
  rw [quotedItem] at h
  split at h
  · cases h
  · split at h
    · cases h
      cases ht : escapeTail? r with
      | none => exact newlineLength_le r
      | some n => exact escapeTail?_le ht
    · split at h
      · cases h
      · cases h
        exact Nat.zero_le _

theorem quotation?_le {s : Text} {n : Nat} {closed : Bool} (h : quotation? s = some (n, closed)) : n ≤ s.length := by
  cases s with
  | nil => cases h
  | cons quote r =>
    have hbody := runLength_le (quotedItem quote) r
    simp only [quotation?] at h
    split at h
    · split at h
      · rename_i hclosed
        cases h
        have : r.drop (runLength (quotedItem quote) r) ≠ [] := by rintro he; rw [he] at hclosed; cases hclosed
        have := List.length_pos_iff.mpr this
        rw [List.length_drop] at this
        rw [List.length_cons]
        omega
      · cases h
        rw [List.length_cons]
        omega
    · cases h

theorem length_closeUrl_le (n : Nat) (s : Text) : (Lexeme.closeUrl n s).length ≤ n + s.length := by
  have hb := countWhile_le isWhitespace s
  simp only [Lexeme.closeUrl]
  split
  · rename_i r h
    have := congrArg List.length h
    rw [List.length_drop, List.length_cons] at this
    simp only []
    omega
  · simp only []
    omega

theorem length_afterUrlOpening? {s rest : Text} (h : afterUrlOpening? s = some rest) :
    s.length = 4 + rest.length := by
  unfold afterUrlOpening? at h
  split at h
  · split at h
    · cases h
      simp only [List.length_cons]
      omega
    · cases h
  · cases h

/-! ## Productions -/

namespace Production

theorem lexeme?_length_le {p : Production} {s : Text} {l : Lexeme} (h : p.lexeme? s = some l) :
    l.length ≤ s.length := by
  cases p <;> simp only [lexeme?] at h
  case comment =>
    unfold Lexeme.comment? at h
    split at h
    · rename_i r
      have hbody := runLength_le commentItem r
      simp only [List.length_cons] at h ⊢
      split at h
      · cases h
        simp only []
        omega
      · rename_i hne
        cases h
        obtain hend | ⟨t, ht⟩ := drop_commentBody r
        · exact absurd hend hne
        · have := congrArg List.length ht
          rw [List.length_drop, List.length_cons, List.length_cons] at this
          simp only []
          omega
    · cases h
  case whitespace =>
    have hs := countWhile_le isWhitespace s
    unfold Lexeme.space? at h
    split at h
    · cases h
    · cases h
      simp only []
      omega
  case string =>
    simp only [Lexeme.string?, Option.map_eq_some_iff] at h
    obtain ⟨⟨n, closed⟩, hq, rfl⟩ := h
    exact quotation?_le hq
  case uri =>
    simp only [Lexeme.uri?, Option.map_eq_some_iff] at h
    obtain ⟨rest, hrest, rfl⟩ := h
    have hlen := length_afterUrlOpening? hrest
    have hblanks := countWhile_le isWhitespace rest
    have hdrop : (rest.drop (countWhile isWhitespace rest)).length = rest.length - countWhile isWhitespace rest :=
      List.length_drop
    split
    · rename_i n hq
      have := quotation?_le hq
      simp only []
      omega
    · rename_i n hq
      have := quotation?_le hq
      refine Nat.le_trans (length_closeUrl_le _ _) ?_
      rw [List.length_drop]
      omega
    · have := runLength_le (charOrEscape isUrlChar) (rest.drop (countWhile isWhitespace rest))
      refine Nat.le_trans (length_closeUrl_le _ _) ?_
      rw [List.length_drop]
      omega
  case unicodeRange =>
    unfold Lexeme.unicodeRange? at h
    split at h
    · rename_i u r
      have hdigits := countUpTo_le 6 isHexDigit r
      have hmarks := countUpTo_le (6 - countUpTo 6 isHexDigit r) (· == '?') (r.drop (countUpTo 6 isHexDigit r))
      have hbound := upperBoundLength_le (r.drop (countUpTo 6 isHexDigit r))
      rw [List.length_drop] at hmarks hbound
      simp only [List.length_cons] at h ⊢
      repeat' split at h
      all_goals cases h <;> simp only [] <;> omega
    · cases h
  case embedding =>
    unfold Lexeme.embedding? at h
    split at h <;> cases h <;> simp
  case attributeOperator =>
    unfold Lexeme.attributeOperator? at h
    split at h <;> cases h <;> simp
  case numeric =>
    simp only [Lexeme.numeric?, Option.map_eq_some_iff] at h
    obtain ⟨n, hn, rfl⟩ := h
    have hle := numberLength?_le hn
    split
    · rename_i r heq
      have := congrArg List.length heq
      rw [List.length_drop, List.length_cons] at this
      simp only []
      omega
    · split
      · rename_i k hk
        have := identLength?_le hk
        rw [List.length_drop] at this
        simp only []
        omega
      · exact hle
  case hash =>
    unfold Lexeme.hash? at h
    split at h
    · rename_i r
      have hr : nameLength r ≤ r.length := runLength_le _ _
      split at h
      · cases h
      · cases h
        simp only [List.length_cons]
        omega
    · cases h
  case identLike =>
    unfold Lexeme.identLike? at h
    split at h
    · simp only [Option.map_eq_some_iff] at h
      obtain ⟨n, hn, rfl⟩ := h
      have := identLength?_le hn
      simp only [List.length_cons]
      omega
    · simp only [Option.map_eq_some_iff] at h
      obtain ⟨n, hn, rfl⟩ := h
      have hle := identLength?_le hn
      split
      · rename_i r heq
        have := congrArg List.length heq
        rw [List.length_drop, List.length_cons] at this
        simp only []
        omega
      · exact hle
  case delim =>
    unfold Lexeme.delim? at h
    split at h
    · cases h
    · split at h
      · cases h
      · cases h
        simp

end Production

end CssLexer
