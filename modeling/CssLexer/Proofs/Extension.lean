/-
  CssLexer.Proofs.Extension — lexemes of a text and of that text with more text behind it.

  A lexeme is settled between `s` and `s ++ t` if the one found in `s ++ t` ends within `s`, or the one found in `s`
  ends three characters before the end of four or more. In the first case `t` can be cut off, in the second it can be
  put there, and both leave the lexeme as it is: each count in it is settled in the same way
  (`CssLexer.Proofs.Lookahead`).

  Proved:
  - `comment?_append` to `identLike?_append`: a production finds the same in `s` and in `s ++ t` where it is settled.
  - `lexeme?_append`: the same for all productions in one statement.
-/

import CssLexer.Proofs.Lookahead
import CssLexer.Proofs.MaximalMunch

namespace CssLexer

def lengthOf (o : Option Lexeme) : Nat := (o.map Lexeme.length).getD 0

@[simp] theorem lengthOf_none : lengthOf none = 0 := rfl

@[simp] theorem lengthOf_some (l : Lexeme) : lengthOf (some l) = l.length := rfl

theorem getD_le_lengthOf {o : Option Nat} {f : Nat → Lexeme} (hf : ∀ n, n ≤ (f n).length) :
    o.getD 0 ≤ lengthOf (o.map f) := by
  cases o with
  | none => exact Nat.le_refl 0
  | some n => exact hf n

theorem exists_two {s : Text} (h : 1 < s.length) : ∃ a b r, s = a :: b :: r := by
  match s, h with
  | a :: b :: r, _ => exact ⟨a, b, r, rfl⟩

theorem exists_four {s : Text} (h : 3 < s.length) : ∃ a b c d r, s = a :: b :: c :: d :: r := by
  match s, h with
  | a :: b :: c :: d :: r, _ => exact ⟨a, b, c, d, r, rfl⟩

/-- What `f` finds in `s ++ t` ends within `s`, or what it finds in `s`, if anything, leaves three characters behind. -/
def Settled (f : Text → Option Lexeme) (s t : Text) : Prop :=
  (∃ l, f (s ++ t) = some l ∧ l.length ≤ s.length) ∨ 3 < s.length ∧ lengthOf (f s) + 2 < s.length

section Settled

variable {s t : Text}

theorem Settled.length_le {f : Text → Option Lexeme} (h : Settled f s t) :
    lengthOf (f (s ++ t)) ≤ s.length ∨ lengthOf (f s) + 2 < s.length := by
  rcases h with ⟨l, hl, hle⟩ | h
  · left
    rwa [hl]
  · exact Or.inr h.2

theorem Settled.length_pos {p : Production} (h : Settled p.lexeme? s t) : 0 < s.length := by
  rcases h with ⟨l, hl, hle⟩ | h
  · exact Nat.lt_of_lt_of_le (Production.lexeme?_length_pos hl) hle
  · omega

theorem Production.one_lt_length {p : Production} (hp : p ∈ [comment, uri, unicodeRange, embedding, attributeOperator])
    {l : Lexeme} (h : p.lexeme? s = some l) : 1 < l.length := by
  simp only [List.mem_cons, List.not_mem_nil, or_false] at hp
  rcases hp with rfl | rfl | rfl | rfl | rfl <;> simp only [lexeme?] at h
  · unfold Lexeme.comment? at h
    split at h
    · simp only at h
      split at h <;> cases h <;> simp only [] <;> omega
    · cases h
  · have := four_le_of_uri? h
    omega
  · unfold Lexeme.unicodeRange? at h
    split at h
    · simp only at h
      repeat' split at h
      all_goals cases h
      all_goals simp only []; omega
    · cases h
  · unfold Lexeme.embedding? at h
    split at h <;> cases h <;> decide
  · unfold Lexeme.attributeOperator? at h
    split at h <;> cases h <;> decide

theorem Settled.one_lt {p : Production}
    (hp : p ∈ [Production.comment, .uri, .unicodeRange, .embedding, .attributeOperator]) (h : Settled p.lexeme? s t) : 1 < s.length := by
  rcases h with ⟨l, hl, hle⟩ | h
  · exact Nat.lt_of_lt_of_le (Production.one_lt_length hp hl) hle
  · omega

end Settled

/-! ## Lexemes -/

namespace Lexeme

variable {s t : Text}

theorem comment?_cons (r : Text) :
    comment? ('/' :: '*' :: r) =
      some ⟨.comment, 2 + runLength commentItem r + if r.drop (runLength commentItem r) = [] then 0 else 2⟩ := by
  simp only [comment?]
  split
  · rename_i hend
    rw [if_pos hend]
    rfl
  · rename_i hne
    rw [if_neg hne]

theorem comment?_eq_none (h : ¬ ['/', '*'] <+: s) : comment? s = none := by
  unfold comment?
  split
  · exact absurd ⟨_, rfl⟩ h
  · rfl

theorem comment?_of_not_opening {c d : Char} (h : ¬ (c = '/' ∧ d = '*')) (r : Text) :
    comment? (c :: d :: r) = none := by
  apply comment?_eq_none
  intro hprefix
  obtain ⟨hc, hprefix⟩ := List.cons_prefix_cons.mp hprefix
  exact h ⟨hc.symm, (List.cons_prefix_cons.mp hprefix).1.symm⟩

/-- The body of a comment with its closing mark has to stand in `s`; an open comment takes all of its text. -/
theorem comment?_append (h : Settled comment? s t) : comment? (s ++ t) = comment? s := by
  obtain ⟨c, d, r, rfl⟩ := exists_two (h.one_lt (p := .comment) (by decide))
  have hlength := h.length_le
  rw [List.cons_append, List.cons_append] at hlength ⊢
  by_cases hopening : c = '/' ∧ d = '*'
  · obtain ⟨rfl, rfl⟩ := hopening
    rw [comment?_cons, comment?_cons, lengthOf_some, lengthOf_some, List.length_cons, List.length_cons] at hlength
    have hbody : t = [] ∨ runLength commentItem (r ++ t) = runLength commentItem r ∧
        runLength commentItem r + 2 ≤ r.length := by
      rcases hlength with hlong | hshort
      · obtain hend | ⟨u, hu⟩ := drop_commentBody (r ++ t)
        · -- the open comment takes all of `s ++ t` and still ends within `s`
          have hall := List.drop_eq_nil_iff.mp hend
          rw [List.length_append] at hall
          exact Or.inl (List.eq_nil_of_length_eq_zero (by simp only [] at hlong; omega))
        · right
          rw [if_neg (by rw [hu]; exact List.cons_ne_nil _ _)] at hlong
          have heq : runLength commentItem (r ++ t) = runLength commentItem r :=
            commentBody_append (by simp only [] at hlong; omega)
          exact ⟨heq, by simp only [] at hlong; omega⟩
      · right
        obtain hend | ⟨u, hu⟩ := drop_commentBody r
        · have hall := List.drop_eq_nil_iff.mp hend
          simp only [] at hshort
          omega
        · have hlen := congrArg List.length hu
          rw [List.length_drop, List.length_cons, List.length_cons] at hlen
          exact ⟨commentBody_append (by omega), by omega⟩
    rcases hbody with rfl | ⟨heq, hle⟩
    · rw [List.append_nil]
    · have hdrop (w : Text) (hw : r.length ≤ w.length) : w.drop (runLength commentItem r) ≠ [] := by
        rw [Ne, List.drop_eq_nil_iff]
        omega
      rw [comment?_cons, comment?_cons, heq, if_neg (hdrop _ (by simp)), if_neg (hdrop _ (Nat.le_refl _))]
  · rw [comment?_of_not_opening hopening, comment?_of_not_opening hopening]

theorem space?_eq (s : Text) :
    space? s = if countWhile isWhitespace s = 0 then none else some ⟨.space, countWhile isWhitespace s⟩ := by
  unfold space?
  split <;> rename_i h <;> rw [h]
  · rfl
  · exact (if_neg (Nat.succ_ne_zero _)).symm

theorem lengthOf_space? (s : Text) : lengthOf (space? s) = countWhile isWhitespace s := by
  rw [space?_eq]
  split
  · rename_i hn
    rw [hn, lengthOf_none]
  · rw [lengthOf_some]

theorem space?_append (h : Settled space? s t) : space? (s ++ t) = space? s := by
  have hlength := h.length_le
  rw [lengthOf_space?, lengthOf_space?] at hlength
  rw [space?_eq, space?_eq, countWhile_append (by omega)]

theorem lengthOf_string? (s : Text) : lengthOf (string? s) = ((quotation? s).map Prod.fst).getD 0 := by
  unfold string?
  cases quotation? s <;> rfl

theorem string?_append (h : Settled string? s t) : string? (s ++ t) = string? s := by
  have hlength := h.length_le
  rw [lengthOf_string?, lengthOf_string?] at hlength
  unfold string?
  rw [quotation?_append (by omega)]

theorem closeUrl_eq (n : Nat) (s : Text) :
    closeUrl n s =
      if (s.drop (countWhile isWhitespace s)).head? = some ')' then ⟨.uri, n + countWhile isWhitespace s + 1⟩
      else ⟨.badUri, n + countWhile isWhitespace s⟩ := by
  unfold closeUrl
  simp only
  split
  · rename_i hclosed
    rw [hclosed]
    rfl
  · rename_i hopen
    rw [if_neg]
    intro hclosed
    obtain ⟨r, hr⟩ := List.head?_eq_some_iff.mp hclosed
    exact hopen r hr

theorem length_closeUrl (n : Nat) (s : Text) : n + countWhile isWhitespace s ≤ (closeUrl n s).length := by
  rw [closeUrl_eq]
  split <;> simp only [] <;> omega

theorem closeUrl_append {n : Nat}
    (h : (closeUrl n (s ++ t)).length ≤ n + s.length ∨ (closeUrl n s).length < n + s.length) :
    closeUrl n (s ++ t) = closeUrl n s := by
  have hlong := length_closeUrl n (s ++ t)
  have hshort := length_closeUrl n s
  have hblanks : countWhile isWhitespace (s ++ t) = countWhile isWhitespace s := countWhile_append (by omega)
  have hle := countWhile_le isWhitespace s
  rw [closeUrl_eq, closeUrl_eq, hblanks, List.drop_append_of_le_length hle] at h ⊢
  by_cases hend : s.drop (countWhile isWhitespace s) = []
  · -- the blanks reach the end of `s`, so there is no room for a parenthesis that closes the url
    have hall := List.drop_eq_nil_iff.mp hend
    rw [hend, List.nil_append, if_neg (by simp : ¬ ([] : Text).head? = some ')')] at h ⊢
    rw [if_neg]
    intro hclosed
    rw [if_pos hclosed] at h
    simp only [] at h
    omega
  · rw [List.head?_append_of_ne_nil _ hend]

theorem afterUrlOpening?_append (h : 3 < s.length) :
    afterUrlOpening? (s ++ t) = (afterUrlOpening? s).map (· ++ t) := by
  obtain ⟨a, b, c, d, r, rfl⟩ := exists_four h
  simp only [List.cons_append]
  by_cases hd : d = '('
  · subst hd
    simp only [afterUrlOpening?]
    split <;> rfl
  · have hnone (r : Text) : afterUrlOpening? (a :: b :: c :: d :: r) = none := by
      rw [afterUrlOpening?]
      intro _ _ _ _ heq
      cases heq
      exact hd rfl
    rw [hnone, hnone, Option.map_none]

/-- A url of `n` characters before its body. -/
def urlOfBody (n : Nat) (body : Text) : Lexeme :=
  match quotation? body with
  | some (k, false) => ⟨.badUri, n + k⟩
  | some (k, true) => closeUrl (n + k) (body.drop k)
  | none =>
    let k := runLength (charOrEscape isUrlChar) body
    closeUrl (n + k) (body.drop k)

theorem uri?_eq (s : Text) :
    uri? s = (afterUrlOpening? s).map fun rest =>
      urlOfBody (4 + countWhile isWhitespace rest) (rest.drop (countWhile isWhitespace rest)) := rfl

section Body

variable {n : Nat} {body : Text}

theorem urlOfBody_of_cut {k : Nat} (h : quotation? body = some (k, false)) :
    urlOfBody n body = ⟨.badUri, n + k⟩ := by rw [urlOfBody, h]

theorem urlOfBody_of_closed {k : Nat} (h : quotation? body = some (k, true)) :
    urlOfBody n body = closeUrl (n + k) (body.drop k) := by rw [urlOfBody, h]

theorem urlOfBody_of_none (h : quotation? body = none) :
    urlOfBody n body = closeUrl (n + runLength (charOrEscape isUrlChar) body)
      (body.drop (runLength (charOrEscape isUrlChar) body)) := by rw [urlOfBody, h]

theorem le_length_urlOfBody (n : Nat) (body : Text) :
    n + ((quotation? body).map Prod.fst).getD 0 ≤ (urlOfBody n body).length := by
  cases hq : quotation? body with
  | none =>
    rw [urlOfBody_of_none hq]
    exact Nat.le_trans (Nat.le_add_right n _) (le_length_closeUrl _ _)
  | some found =>
    obtain ⟨k, closed⟩ := found
    cases closed with
    | false => rw [urlOfBody_of_cut hq]; exact Nat.le_refl _
    | true => rw [urlOfBody_of_closed hq]; exact le_length_closeUrl _ _

theorem urlOfBody_append
    (h : (urlOfBody n (body ++ t)).length ≤ n + body.length ∨ (urlOfBody n body).length + 2 < n + body.length) :
    urlOfBody n (body ++ t) = urlOfBody n body := by
  have hlong := le_length_urlOfBody n (body ++ t)
  have hshort := le_length_urlOfBody n body
  have hquotation : quotation? (body ++ t) = quotation? body := quotation?_append (by omega)
  cases hq : quotation? body with
  | none =>
    have hrun : runLength (charOrEscape isUrlChar) (body ++ t) = runLength (charOrEscape isUrlChar) body := by
      apply runLength_append (local_charOrEscape isUrlChar)
      rw [urlOfBody_of_none hq, urlOfBody_of_none (hquotation.trans hq)] at h
      have hclose (s : Text) := le_length_closeUrl (n + runLength (charOrEscape isUrlChar) s)
        (s.drop (runLength (charOrEscape isUrlChar) s))
      have := hclose body
      have := hclose (body ++ t)
      omega
    have hle := runLength_le (charOrEscape isUrlChar) body
    rw [urlOfBody_of_none hq, urlOfBody_of_none (hquotation.trans hq), hrun, List.drop_append_of_le_length hle] at h ⊢
    apply closeUrl_append
    rw [List.length_drop]
    omega
  | some found =>
    obtain ⟨k, closed⟩ := found
    have hk : k ≤ body.length := quotation?_le hq
    cases closed with
    | false => rw [urlOfBody_of_cut hq, urlOfBody_of_cut (hquotation.trans hq)]
    | true =>
      rw [urlOfBody_of_closed hq, urlOfBody_of_closed (hquotation.trans hq), List.drop_append_of_le_length hk] at h ⊢
      apply closeUrl_append
      rw [List.length_drop]
      omega

end Body

theorem uri?_append (h : Settled uri? s t) : uri? (s ++ t) = uri? s := by
  have hfour : 3 < s.length := by
    rcases h with ⟨l, hl, hle⟩ | h
    · exact Nat.lt_of_lt_of_le (four_le_of_uri? hl) hle
    · exact h.1
  have hlength := h.length_le
  rw [uri?_eq, uri?_eq, afterUrlOpening?_append hfour] at hlength ⊢
  cases hr : afterUrlOpening? s with
  | none => rfl
  | some rest =>
    rw [hr, Option.map_some, Option.map_some, Option.map_some, lengthOf_some, lengthOf_some,
      length_afterUrlOpening? hr] at hlength
    have hbody (s : Text) := le_length_urlOfBody (4 + countWhile isWhitespace s) (s.drop (countWhile isWhitespace s))
    have hblanks : countWhile isWhitespace (rest ++ t) = countWhile isWhitespace rest := by
      have := hbody rest
      have := hbody (rest ++ t)
      exact countWhile_append (by omega)
    have hle := countWhile_le isWhitespace rest
    rw [hblanks, List.drop_append_of_le_length hle] at hlength
    rw [Option.map_some, Option.map_some, Option.map_some, hblanks, List.drop_append_of_le_length hle,
      urlOfBody_append]
    rw [List.length_drop]
    omega

theorem unicodeRange?_of_not_opening {u c : Char} (h : ¬ (c = '+' ∧ isLetterOf 'u' u = true)) (r : Text) :
    unicodeRange? (u :: c :: r) = none := by
  unfold unicodeRange?
  split
  · rename_i heq
    cases heq
    exact if_neg fun hu => h ⟨rfl, hu⟩
  · rfl

/-- The second bound counts only where there are no question marks. -/
theorem lengthOf_unicodeRange? {u : Char} (hu : isLetterOf 'u' u = true) (r : Text) :
    lengthOf (unicodeRange? (u :: '+' :: r)) =
      let digits := countUpTo 6 isHexDigit r
      let wildcards := countUpTo (6 - digits) (· == '?') (r.drop digits)
      if digits + wildcards = 0 then 0
      else if wildcards = 0 then 2 + digits + upperBoundLength (r.drop digits) else 2 + digits + wildcards := by
  simp only [unicodeRange?, hu, if_true]
  split
  · rfl
  · split <;> rfl

theorem places_le {u : Char} (hu : isLetterOf 'u' u = true) (r : Text) :
    countUpTo 6 isHexDigit r +
      countUpTo (6 - countUpTo 6 isHexDigit r) (· == '?') (r.drop (countUpTo 6 isHexDigit r)) ≤
        lengthOf (unicodeRange? (u :: '+' :: r)) - 2 := by
  rw [lengthOf_unicodeRange? hu]
  simp only
  split
  · omega
  · split <;> omega

theorem unicodeRange?_append (h : Settled unicodeRange? s t) : unicodeRange? (s ++ t) = unicodeRange? s := by
  obtain ⟨u, c, r, rfl⟩ := exists_two (h.one_lt (p := .unicodeRange) (by decide))
  have hlength := h.length_le
  rw [List.cons_append, List.cons_append] at hlength ⊢
  by_cases hopening : c = '+' ∧ isLetterOf 'u' u = true
  · obtain ⟨rfl, hu⟩ := hopening
    rw [List.length_cons, List.length_cons] at hlength
    have hle := countUpTo_le 6 isHexDigit r
    have hdrop : (r.drop (countUpTo 6 isHexDigit r)).length = r.length - countUpTo 6 isHexDigit r := List.length_drop
    have hplaces := places_le hu
    have hdigits : countUpTo 6 isHexDigit (r ++ t) = countUpTo 6 isHexDigit r := by
      have := hplaces r
      have := hplaces (r ++ t)
      exact countUpTo_append (by omega)
    have hwildcards : countUpTo (6 - countUpTo 6 isHexDigit r) (· == '?') (r.drop (countUpTo 6 isHexDigit r) ++ t) =
        countUpTo (6 - countUpTo 6 isHexDigit r) (· == '?') (r.drop (countUpTo 6 isHexDigit r)) := by
      have := hplaces r
      have hlong := hplaces (r ++ t)
      rw [hdigits, List.drop_append_of_le_length hle] at hlong
      exact countUpTo_append (by omega)
    rw [lengthOf_unicodeRange? hu, lengthOf_unicodeRange? hu] at hlength
    simp only [hdigits, List.drop_append_of_le_length hle, hwildcards] at hlength
    simp only [unicodeRange?, hu, if_true, hdigits, List.drop_append_of_le_length hle, hwildcards]
    split
    · rfl
    · rename_i hany
      split
      · rename_i hnone
        rw [if_neg hany, if_neg hany, if_pos hnone, if_pos hnone] at hlength
        rw [upperBoundLength_append (by omega)]
      · rfl
  · rw [unicodeRange?_of_not_opening hopening, unicodeRange?_of_not_opening hopening]

theorem exists_append_of_append_eq {v w : Text} (h : s ++ t = v ++ w) (hle : v.length ≤ s.length) :
    ∃ r, s = v ++ r := by
  obtain ⟨r, hr⟩ := List.prefix_of_prefix_length_le ⟨w, h.symm⟩ ⟨t, rfl⟩ hle
  exact ⟨r, hr.symm⟩

theorem embedding?_append (h : Settled embedding? s t) : embedding? (s ++ t) = embedding? s := by
  rcases h with ⟨l, hl, hle⟩ | ⟨hlen, -⟩
  · unfold embedding? at hl
    split at hl
    · rename_i w hw
      cases hl
      obtain ⟨r, rfl⟩ := exists_append_of_append_eq (v := ['<', '!', '-', '-']) hw hle
      rfl
    · rename_i w hw
      cases hl
      obtain ⟨r, rfl⟩ := exists_append_of_append_eq (v := ['-', '-', '>']) hw hle
      rfl
    · cases hl
  · have hfirst (a b c d : Char) (r : Text) : embedding? (a :: b :: c :: d :: r) = embedding? [a, b, c, d] := by
      unfold embedding?
      split <;> rename_i h
      · cases h
        rfl
      · cases h
        rfl
      · rename_i h'
        split <;> rename_i heq
        · cases heq
          exact absurd rfl (h' r)
        · cases heq
          exact absurd rfl (h _)
        · rfl
    obtain ⟨a, b, c, d, r, rfl⟩ := exists_four hlen
    exact (hfirst a b c d (r ++ t)).trans (hfirst a b c d r).symm

theorem attributeOperator?_append (h : Settled attributeOperator? s t) :
    attributeOperator? (s ++ t) = attributeOperator? s := by
  have hfirst (a b : Char) (r : Text) : attributeOperator? (a :: b :: r) = attributeOperator? [a, b] := by
    unfold attributeOperator?
    split <;> rename_i h
    iterate 5
      cases h
      rfl
    split <;> simp_all
  obtain ⟨a, b, r, rfl⟩ := exists_two (h.one_lt (p := .attributeOperator) (by decide))
  exact (hfirst a b (r ++ t)).trans (hfirst a b r).symm

/-- The number of the first `n` characters, with what `r` has to add to it. -/
def numberWith (n : Nat) (r : Text) : Lexeme :=
  match r with
  | '%' :: _ => ⟨.percentage, n + 1⟩
  | r => match identLength? r with
    | some unit => ⟨.dimension, n + unit⟩
    | none => ⟨.number, n⟩

theorem numeric?_eq (s : Text) : numeric? s = (numberLength? s).map fun n => numberWith n (s.drop n) := rfl

theorem numberWith_of_ne {n : Nat} {r : Text} (h : r.head? ≠ some '%') :
    numberWith n r = match identLength? r with
      | some unit => ⟨.dimension, n + unit⟩
      | none => ⟨.number, n⟩ := by
  unfold numberWith
  split
  · exact absurd rfl h
  · rfl

theorem le_length_numberWith (n : Nat) (r : Text) : n + (identLength? r).getD 0 ≤ (numberWith n r).length := by
  by_cases hpercent : r.head? = some '%'
  · obtain ⟨r, rfl⟩ := List.head?_eq_some_iff.mp hpercent
    exact Nat.le_succ n
  · rw [numberWith_of_ne hpercent]
    cases identLength? r <;> exact Nat.le_refl _

theorem numberWith_append {n : Nat} {r : Text}
    (h : (numberWith n (r ++ t)).length ≤ n + r.length ∨ (numberWith n r).length + 2 < n + r.length) :
    numberWith n (r ++ t) = numberWith n r := by
  have hlong := le_length_numberWith n (r ++ t)
  have hshort := le_length_numberWith n r
  have hunit : identLength? (r ++ t) = identLength? r := identLength?_append (by omega)
  have hpercent : (r ++ t).head? = some '%' → r.head? = some '%' := by
    intro hhead
    cases r with
    | cons c r => exact hhead
    | nil =>
      obtain ⟨u, rfl⟩ := List.head?_eq_some_iff.mp hhead
      exact absurd h (by simp [numberWith, show identLength? [] = none from rfl])
  by_cases hhead : r.head? = some '%'
  · obtain ⟨u, rfl⟩ := List.head?_eq_some_iff.mp hhead
    rfl
  · rw [numberWith_of_ne hhead, numberWith_of_ne (mt hpercent hhead), hunit]

theorem numeric?_append (h : Settled numeric? s t) : numeric? (s ++ t) = numeric? s := by
  have hlength := h.length_le
  have hle (s : Text) : (numberLength? s).getD 0 ≤ lengthOf (numeric? s) :=
    getD_le_lengthOf fun n => Nat.le_trans (Nat.le_add_right n _) (le_length_numberWith n (s.drop n))
  have hnumber : numberLength? (s ++ t) = numberLength? s := by
    have := hle s
    have := hle (s ++ t)
    exact numberLength?_append (by omega)
  rw [numeric?_eq, numeric?_eq, hnumber] at hlength ⊢
  cases hn : numberLength? s with
  | none => rfl
  | some n =>
    have hn' := numberLength?_le hn
    rw [hn, Option.map_some, Option.map_some, lengthOf_some, lengthOf_some,
      List.drop_append_of_le_length hn'] at hlength
    rw [Option.map_some, Option.map_some, List.drop_append_of_le_length hn', numberWith_append]
    rw [List.length_drop]
    omega

theorem hash?_cons (r : Text) :
    hash? ('#' :: r) = if nameLength r = 0 then none else some ⟨.hash, 1 + nameLength r⟩ := by
  rw [hash?]
  split
  · rename_i h
    rw [if_pos h]
  · rename_i h
    rw [if_neg h]

theorem hash?_eq_none (h : s.head? ≠ some '#') : hash? s = none := by
  unfold hash?
  split
  · exact absurd rfl h
  · rfl

theorem hash?_append (h : Settled hash? s t) : hash? (s ++ t) = hash? s := by
  obtain ⟨c, r, rfl⟩ := List.exists_cons_of_length_pos (h.length_pos (p := .hash))
  have hlength := h.length_le
  rw [List.cons_append] at hlength ⊢
  by_cases hc : c = '#'
  · subst hc
    rw [List.length_cons] at hlength
    rw [hash?_cons, hash?_cons] at hlength ⊢
    rw [nameLength_append]
    rcases hlength with hlong | hshort
    · left
      split at hlong
      · omega
      · simp only [lengthOf_some] at hlong
        omega
    · right
      split at hshort
      · omega
      · simp only [lengthOf_some] at hshort
        omega
  · rw [hash?_eq_none (by simpa using hc), hash?_eq_none (by simpa using hc)]

/-- The identifier of the first `n` characters, or a function if the parenthesis is the next. -/
def identWith (n : Nat) (r : Text) : Lexeme :=
  match r with
  | '(' :: _ => ⟨.function, n + 1⟩
  | _ => ⟨.ident, n⟩

theorem le_length_identWith (n : Nat) (r : Text) : n ≤ (identWith n r).length := by
  unfold identWith
  split
  · exact Nat.le_succ n
  · exact Nat.le_refl n

theorem identWith_of_ne {n : Nat} {r : Text} (h : r.head? ≠ some '(') : identWith n r = ⟨.ident, n⟩ := by
  unfold identWith
  split
  · exact absurd rfl h
  · rfl

theorem identWith_append {n : Nat} {r : Text} (h : (identWith n (r ++ t)).length ≤ n + r.length ∨ r ≠ []) :
    identWith n (r ++ t) = identWith n r := by
  by_cases hhead : r.head? = some '('
  · obtain ⟨u, rfl⟩ := List.head?_eq_some_iff.mp hhead
    rfl
  · have hhead' : (r ++ t).head? ≠ some '(' := by
      intro hopen
      rcases h with h | h
      · -- a parenthesis behind `r` would make the lexeme longer than that
        obtain ⟨u, hu⟩ := List.head?_eq_some_iff.mp hopen
        cases r with
        | nil =>
          rw [hu] at h
          exact absurd h (by simp [identWith])
        | cons c r => exact hhead hopen
      · rw [List.head?_append_of_ne_nil _ h] at hopen
        exact hhead hopen
    rw [identWith_of_ne hhead, identWith_of_ne hhead']

theorem identLike?_at (r : Text) : identLike? ('@' :: r) = (identLength? r).map fun n => ⟨.atKeyword, 1 + n⟩ := rfl

theorem identLike?_of_ne {c : Char} (hc : c ≠ '@') (r : Text) :
    identLike? (c :: r) = (identLength? (c :: r)).map fun n => identWith n ((c :: r).drop n) := by
  rw [identLike?]
  · rfl
  · intro _ heq
    cases heq
    exact hc rfl

theorem identLike?_append (h : Settled identLike? s t) : identLike? (s ++ t) = identLike? s := by
  obtain ⟨c, r, rfl⟩ := List.exists_cons_of_length_pos (h.length_pos (p := .identLike))
  by_cases hc : c = '@'
  · subst hc
    rw [List.cons_append, identLike?_at, identLike?_at, identLength?_append]
    rcases h with ⟨l, hl, hle⟩ | ⟨hlen, hshort⟩
    · left
      rw [List.cons_append, identLike?_at, Option.map_eq_some_iff] at hl
      obtain ⟨n, hn, rfl⟩ := hl
      rw [List.length_cons] at hle
      rw [hn, Option.getD_some]
      simp only [] at hle
      omega
    · right
      rw [identLike?_at, List.length_cons] at hshort
      rw [List.length_cons] at hlen
      cases hi : identLength? r with
      | none =>
        rw [Option.getD_none]
        omega
      | some n =>
        rw [hi, Option.map_some, lengthOf_some] at hshort
        rw [Option.getD_some]
        simp only [] at hshort
        omega
  · have hlength := h.length_le
    rw [List.cons_append] at hlength ⊢
    have hle (r : Text) : (identLength? (c :: r)).getD 0 ≤ lengthOf (identLike? (c :: r)) := by
      rw [identLike?_of_ne hc]
      exact getD_le_lengthOf fun n => le_length_identWith n ((c :: r).drop n)
    have hident : identLength? (c :: (r ++ t)) = identLength? (c :: r) := by
      have := hle r
      have := hle (r ++ t)
      rw [← List.cons_append]
      exact identLength?_append (by rw [List.cons_append]; omega)
    rw [identLike?_of_ne hc, identLike?_of_ne hc, hident] at hlength ⊢
    cases hi : identLength? (c :: r) with
    | none => rfl
    | some n =>
      have hn := identLength?_le hi
      have hn' := le_length_identWith n ((c :: r).drop n)
      rw [hi, Option.map_some, Option.map_some, lengthOf_some, lengthOf_some, ← List.cons_append,
        List.drop_append_of_le_length hn] at hlength
      rw [Option.map_some, Option.map_some, ← List.cons_append, List.drop_append_of_le_length hn, identWith_append]
      rw [Ne, List.drop_eq_nil_iff, List.length_drop]
      omega

end Lexeme

/-- Text put behind a text, or cut off behind it, changes nothing for a production whose lexeme is settled. -/
theorem Production.lexeme?_append {p : Production} {s t : Text} (h : Settled p.lexeme? s t) :
    p.lexeme? (s ++ t) = p.lexeme? s := by
  cases p with
  | comment => exact Lexeme.comment?_append h
  | whitespace => exact Lexeme.space?_append h
  | string => exact Lexeme.string?_append h
  | uri => exact Lexeme.uri?_append h
  | unicodeRange => exact Lexeme.unicodeRange?_append h
  | embedding => exact Lexeme.embedding?_append h
  | attributeOperator => exact Lexeme.attributeOperator?_append h
  | numeric => exact Lexeme.numeric?_append h
  | hash => exact Lexeme.hash?_append h
  | identLike => exact Lexeme.identLike?_append h
  | delim =>
    obtain ⟨c, r, rfl⟩ := List.exists_cons_of_length_pos h.length_pos
    rfl

end CssLexer
