/-
  CssLexer.Proofs.Openings — when a production finds a lexeme, told from the first characters alone.

  `Production.opens` looks at no more than four characters and takes no run. `leading c` names the productions, the
  single character apart, that can find a lexeme where `c` comes first.

  Proved:
  - `isSome_lexeme?`: a production finds a lexeme exactly where it opens.
  - `mem_leading`: what opens at `c` is among `leading c`.
  - `opens_apart`: two productions open together only as an identifier with a url or with a range of code points, or if
    one of them is the single character.
-/

import CssLexer.Proofs.Ascii
import CssLexer.Proofs.Bounds

namespace CssLexer

/-! ## Names and identifiers -/

def escapeOpens (r : Text) : Bool := r.head?.any fun c => !isNewline c

def itemOpens (p : Char → Bool) : Text → Bool
  | [] => false
  | c :: r => p c || (c == '\\' && escapeOpens r)

def identOpens : Text → Bool
  | '-' :: r => itemOpens isNameStart r
  | s => itemOpens isNameStart s

theorem isSome_escapeTail? (r : Text) : (escapeTail? r).isSome = escapeOpens r := by
  cases r with
  | nil => rfl
  | cons c r =>
    by_cases hx : isHexDigit c = true
    · simp [escapeTail?, escapeOpens, hx, isNewline_of_isHexDigit hx]
    · by_cases hn : isNewline c = true <;> simp [escapeTail?, escapeOpens, hx, hn]

theorem isSome_charOrEscape (p : Char → Bool) (c : Char) (r : Text) :
    (charOrEscape p c r).isSome = itemOpens p (c :: r) := by
  rw [itemOpens, ← isSome_escapeTail?, charOrEscape]
  by_cases hp : p c = true
  · rw [if_pos hp, hp, Bool.true_or, Option.isSome_some]
  · by_cases hb : (c == '\\') = true <;> simp [hp, hb]

theorem isSome_startedNameLength? (s : Text) : (startedNameLength? s).isSome = itemOpens isNameStart s := by
  cases s with
  | nil => rfl
  | cons c r => rw [startedNameLength?, Option.isSome_map, isSome_charOrEscape]

theorem isSome_identLength? (s : Text) : (identLength? s).isSome = identOpens s := by
  fun_cases identLength? s with
  | case1 r => rw [Option.isSome_map, isSome_startedNameLength?, identOpens]
  | case2 s h => rw [isSome_startedNameLength?, identOpens]; exact h

theorem nameLength_eq_zero_iff (s : Text) : nameLength s = 0 ↔ itemOpens isNameChar s = false := by
  cases s with
  | nil => simp [nameLength, itemOpens]
  | cons c r =>
    rw [nameLength, runLength_cons, ← isSome_charOrEscape]
    cases charOrEscape isNameChar c r <;> simp

/-! ## Numbers -/

theorem countWhile_eq_zero_iff (p : Char → Bool) (s : Text) : countWhile p s = 0 ↔ s.head?.any p = false := by
  cases s with
  | nil => simp [countWhile]
  | cons c r => by_cases h : p c = true <;> simp [countWhile, h]

theorem countUpTo_succ_eq_zero_iff (n : Nat) (p : Char → Bool) (s : Text) :
    countUpTo (n + 1) p s = 0 ↔ s.head?.any p = false := by
  rw [countUpTo, countWhile_eq_zero_iff]
  cases s <;> simp

def fractionOpens : Text → Bool
  | '.' :: r => r.head?.any isDigit
  | _ => false

def numberOpens (s : Text) : Bool := s.head?.any isDigit || fractionOpens s

theorem fractionLength_eq_zero_iff (s : Text) : fractionLength s = 0 ↔ fractionOpens s = false := by
  fun_cases fractionLength s with
  | case1 r h => simpa [fractionOpens] using (countWhile_eq_zero_iff isDigit r).mp h
  | case2 r h =>
    rw [imp_false, countWhile_eq_zero_iff] at h
    simpa [fractionOpens] using h
  | case3 s h => rw [fractionOpens]; simp; exact h

theorem isSome_numberLength? (s : Text) : (numberLength? s).isSome = numberOpens s := by
  have hsum : (numberLength? s).isSome = true ↔
      ¬ (countWhile isDigit s + fractionLength (s.drop (countWhile isDigit s)) = 0) := by
    simp only [numberLength?]
    split <;> rename_i h <;> rw [h] <;> simp
  rw [Bool.eq_iff_iff, hsum, numberOpens]
  by_cases hd : s.head?.any isDigit = true
  · have hne : countWhile isDigit s ≠ 0 := by rw [Ne, countWhile_eq_zero_iff, hd]; simp
    simp [hd, hne]
  · have h0 : countWhile isDigit s = 0 := by rw [countWhile_eq_zero_iff]; simpa using hd
    rw [h0, List.drop_zero, Nat.zero_add, fractionLength_eq_zero_iff]
    simp [hd]

theorem isSome_quotation? (s : Text) : (quotation? s).isSome = s.head?.any isQuote := by
  cases s with
  | nil => rfl
  | cons quote r =>
    rw [quotation?, List.head?_cons, Option.any_some]
    cases hq : isQuote quote with
    | false => rfl
    | true =>
      rw [if_pos rfl]
      dsimp only
      split <;> rfl

/-! ## Productions -/

namespace Production

/-- Whether a production finds a lexeme at the start of a text. -/
def opens : Production → Text → Bool
  | comment => fun
    | '/' :: '*' :: _ => true
    | _ => false
  | whitespace => fun s => s.head?.any isWhitespace
  | string => fun s => s.head?.any isQuote
  | uri => fun s => (afterUrlOpening? s).isSome
  | unicodeRange => fun
    | u :: '+' :: r => isLetterOf 'u' u && r.head?.any fun c => isHexDigit c || c == '?'
    | _ => false
  | embedding => fun
    | '<' :: '!' :: '-' :: '-' :: _ => true
    | '-' :: '-' :: '>' :: _ => true
    | _ => false
  | attributeOperator => fun
    | c :: '=' :: _ => ['~', '|', '^', '$', '*'].contains c
    | _ => false
  | numeric => numberOpens
  | hash => fun
    | '#' :: r => itemOpens isNameChar r
    | _ => false
  | identLike => fun
    | '@' :: r => identOpens r
    | s => identOpens s
  | delim => fun s => s.head?.any fun c => !isControl c

/-- The six places of a range are all free exactly where neither a digit nor a question mark comes first. -/
theorem places_eq_zero_iff (r : Text) :
    countUpTo 6 isHexDigit r +
        countUpTo (6 - countUpTo 6 isHexDigit r) (· == '?') (r.drop (countUpTo 6 isHexDigit r)) = 0 ↔
      (r.head?.any fun c => isHexDigit c || c == '?') = false := by
  by_cases hx : r.head?.any isHexDigit = true
  · have hne : countUpTo 6 isHexDigit r ≠ 0 := by rw [Ne, countUpTo_succ_eq_zero_iff, hx]; simp
    cases r <;> simp_all
  · have h0 : countUpTo 6 isHexDigit r = 0 := by rw [countUpTo_succ_eq_zero_iff]; simpa using hx
    rw [h0, Nat.sub_zero, List.drop_zero, Nat.zero_add, countUpTo_succ_eq_zero_iff]
    cases r <;> simp_all

/-- A production finds a lexeme exactly where it opens. -/
theorem isSome_lexeme? (p : Production) (s : Text) : (p.lexeme? s).isSome = p.opens s := by
  cases p <;> simp only [lexeme?]
  case comment =>
    unfold Lexeme.comment?
    split
    · simp only
      split <;> rfl
    · rename_i h
      simp only [opens]
      rfl
  case whitespace =>
    simp only [opens]
    unfold Lexeme.space?
    split <;> rename_i h
    · rw [(countWhile_eq_zero_iff _ _).mp h]
      rfl
    · by_cases hs : s.head?.any isWhitespace = true
      · simp [hs]
      · rw [(countWhile_eq_zero_iff _ _).mpr (by simpa using hs)] at h
        cases h
  case string =>
    rw [Lexeme.string?, Option.isSome_map, isSome_quotation?]
    rfl
  case uri =>
    rw [Lexeme.uri?, Option.isSome_map]
    rfl
  case unicodeRange =>
    unfold Lexeme.unicodeRange?
    split
    · rename_i u r
      show _ = (isLetterOf 'u' u && r.head?.any fun c => isHexDigit c || c == '?')
      by_cases hu : isLetterOf 'u' u = true
      · simp only [hu, if_true, Bool.true_and, places_eq_zero_iff]
        cases hr : r.head?.any fun c => isHexDigit c || c == '?' with
        | false => rfl
        | true => simp only [Bool.true_eq_false, if_false]; split <;> rfl
      · simp [hu]
    · rename_i h
      simp only [opens]
      rfl
  case embedding =>
    unfold Lexeme.embedding?
    split
    · rfl
    · rfl
    · rename_i h h'
      simp only [opens]
      rfl
  case attributeOperator =>
    unfold Lexeme.attributeOperator?
    split
    · rfl
    · rfl
    · rfl
    · rfl
    · rfl
    · rename_i h1 h2 h3 h4 h5
      simp only [opens]
      split
      · rename_i c r
        rw [Option.isSome_none, eq_comm, ← Bool.not_eq_true, List.contains_iff_mem]
        intro hm
        simp only [List.mem_cons, List.not_mem_nil, or_false] at hm
        rcases hm with rfl | rfl | rfl | rfl | rfl
        · exact h1 _ rfl
        · exact h2 _ rfl
        · exact h3 _ rfl
        · exact h4 _ rfl
        · exact h5 _ rfl
      · rfl
  case numeric =>
    rw [Lexeme.numeric?, Option.isSome_map, isSome_numberLength?]
    rfl
  case hash =>
    unfold Lexeme.hash?
    split
    · rename_i r
      show _ = itemOpens isNameChar r
      split <;> rename_i h
      · rw [(nameLength_eq_zero_iff r).mp h]
        rfl
      · rw [imp_false, nameLength_eq_zero_iff] at h
        simpa using h
    · rename_i h
      simp only [opens]
      rfl
  case identLike =>
    unfold Lexeme.identLike?
    split
    · rw [Option.isSome_map, isSome_identLength?]
      rfl
    · rename_i h
      rw [Option.isSome_map, isSome_identLength?]
      simp only [opens]
  case delim =>
    cases s with
    | nil => rfl
    | cons c r =>
      show (if isControl c then none else some (⟨.delim, 1⟩ : Lexeme)).isSome = !isControl c
      cases isControl c <;> rfl

/-! ## What opens together -/

/-- The productions, the single character apart, that can open where `c` comes first. -/
def leading (c : Char) : List Production :=
  if isNonascii c then [identLike]
  else if c == '/' then [comment]
  else if isWhitespace c then [whitespace]
  else if isQuote c then [string]
  else if c == '<' then [embedding]
  else if c == '-' then [embedding, identLike]
  else if ['~', '|', '^', '$', '*'].contains c then [attributeOperator]
  else if isDigit c || c == '.' then [numeric]
  else if c == '#' then [hash]
  else if isLetterOf 'u' c then [uri, unicodeRange, identLike]
  else [identLike]

theorem leading_of_class :
    ∀ c, (isWhitespace c = true → leading c = [whitespace]) ∧ (isQuote c = true → leading c = [string]) ∧
      (isDigit c = true → leading c = [numeric]) ∧ (isNameStart c = true → identLike ∈ leading c) := by
  apply forall_char_of_ascii
  · decide
  · intro c hc
    simp [isWhitespace_of_nonascii hc, isQuote_of_nonascii hc, isDigit_of_nonascii hc, leading, hc]

theorem leading_of_identOpens {c : Char} {r : Text} (h : identOpens (c :: r) = true) : identLike ∈ leading c := by
  by_cases hd : c = '-'
  · subst hd
    decide
  · have hi : itemOpens isNameStart (c :: r) = true := by
      rw [identOpens] at h
      · exact h
      · rintro _ ⟨⟩
        exact hd rfl
    simp only [itemOpens, Bool.or_eq_true, Bool.and_eq_true, beq_iff_eq] at hi
    rcases hi with hs | ⟨rfl, -⟩
    · exact (leading_of_class c).2.2.2 hs
    · decide

theorem leading_of_letterU {c : Char} (h : isLetterOf 'u' c = true) : leading c = [uri, unicodeRange, identLike] := by
  rcases isLetterOf_u_iff.mp h with rfl | rfl <;> decide

theorem mem_leading {p : Production} {c : Char} {r : Text} (h : p.opens (c :: r) = true) (hp : p ≠ delim) :
    p ∈ leading c := by
  cases p <;> simp only [opens, List.head?_cons, Option.any_some] at h
  case comment =>
    split at h
    · rename_i heq
      cases heq
      decide
    · cases h
  case whitespace => rw [(leading_of_class c).1 h]; decide
  case string => rw [(leading_of_class c).2.1 h]; decide
  case uri =>
    unfold afterUrlOpening? at h
    split at h
    · rename_i u _ _ _ heq
      cases heq
      by_cases hu : isLetterOf 'u' c = true
      · rw [leading_of_letterU hu]
        decide
      · simp [hu] at h
    · cases h
  case unicodeRange =>
    split at h
    · rename_i heq
      cases heq
      rw [leading_of_letterU (Bool.and_eq_true_iff.mp h).1]
      decide
    · cases h
  case embedding =>
    split at h
    · rename_i heq
      cases heq
      decide
    · rename_i heq
      cases heq
      decide
    · cases h
  case attributeOperator =>
    split at h
    · rename_i heq
      cases heq
      rw [List.contains_iff_mem] at h
      revert h
      simp only [List.mem_cons, List.not_mem_nil, or_false]
      rintro (rfl | rfl | rfl | rfl | rfl) <;> decide
    · cases h
  case numeric =>
    simp only [numberOpens, List.head?_cons, Option.any_some, Bool.or_eq_true] at h
    rcases h with hd | hf
    · rw [(leading_of_class c).2.2.1 hd]
      decide
    · unfold fractionOpens at hf
      split at hf
      · rename_i heq
        cases heq
        decide
      · cases hf
  case hash =>
    split at h
    · rename_i heq
      cases heq
      decide
    · cases h
  case identLike =>
    split at h
    · rename_i heq
      cases heq
      decide
    · exact leading_of_identOpens h
  case delim => exact absurd rfl hp

theorem opens_of_notMem_leading {p : Production} {c : Char} (h : p ∉ leading c) (hp : p ≠ delim) (r : Text) :
    p.opens (c :: r) = false := by
  rw [← Bool.not_eq_true]
  exact fun hopens => h (mem_leading hopens hp)

/-- Where productions share a first character: at a dash, and at the letter of urls and ranges. -/
def Shared (c : Char) (ps : List Production) : Prop :=
  (∃ p, ps = [p]) ∨ (c = '-' ∧ ps = [embedding, identLike]) ∨ ps = [uri, unicodeRange, identLike]

theorem shared_leading (c : Char) : Shared c (leading c) := by
  have one (p : Production) : Shared c [p] := Or.inl ⟨p, rfl⟩
  unfold leading
  refine iteInduction (fun _ => one _) fun _ => ?_
  refine iteInduction (fun _ => one _) fun _ => ?_
  refine iteInduction (fun _ => one _) fun _ => ?_
  refine iteInduction (fun _ => one _) fun _ => ?_
  refine iteInduction (fun _ => one _) fun _ => ?_
  refine iteInduction (fun h => Or.inr (Or.inl ⟨beq_iff_eq.mp h, rfl⟩)) fun _ => ?_
  refine iteInduction (fun _ => one _) fun _ => ?_
  refine iteInduction (fun _ => one _) fun _ => ?_
  refine iteInduction (fun _ => one _) fun _ => ?_
  exact iteInduction (fun _ => Or.inr (Or.inr rfl)) fun _ => one _

/-- The pairs of productions that open together: an identifier with a url, and with a range of code points. -/
def overlapping : List (Production × Production) :=
  [(uri, identLike), (identLike, uri), (unicodeRange, identLike), (identLike, unicodeRange)]

/-- A url and a range of code points never open together: their second characters differ. -/
theorem uri_unicodeRange_apart {s : Text} (h : uri.opens s = true) : unicodeRange.opens s = false := by
  simp only [opens] at h ⊢
  split
  · unfold afterUrlOpening? at h
    split at h
    · rename_i heq
      cases heq
      simp [show isLetterOf 'r' '+' = false by decide] at h
    · cases h
  · rfl

/-- The mark that closes an embedded style sheet is no identifier: only one dash may come before a name. -/
theorem embedding_identLike_apart {r : Text} (h : embedding.opens ('-' :: r) = true) :
    identLike.opens ('-' :: r) = false := by
  simp only [opens] at h
  split at h
  · rename_i heq
    cases heq
  · rename_i heq
    cases heq
    rfl
  · cases h

theorem opens_apart {p q : Production} {s : Text} (hp : p ≠ delim) (hq : q ≠ delim) (h : p.opens s = true)
    (h' : q.opens s = true) : p = q ∨ (p, q) ∈ overlapping := by
  cases s with
  | nil => cases p <;> cases h
  | cons c r =>
    have hm := mem_leading h hp
    have hm' := mem_leading h' hq
    rcases shared_leading c with ⟨x, hx⟩ | ⟨rfl, hx⟩ | hx <;> rw [hx] at hm hm' <;>
      simp only [List.mem_cons, List.not_mem_nil, or_false] at hm hm'
    · exact Or.inl (hm.trans hm'.symm)
    · rcases hm with rfl | rfl <;> rcases hm' with rfl | rfl
      · exact Or.inl rfl
      · rw [embedding_identLike_apart h] at h'
        cases h'
      · rw [embedding_identLike_apart h'] at h
        cases h
      · exact Or.inl rfl
    · rcases hm with rfl | rfl | rfl <;> rcases hm' with rfl | rfl | rfl
      · exact Or.inl rfl
      · rw [uri_unicodeRange_apart h] at h'
        cases h'
      · exact Or.inr (by decide)
      · rw [uri_unicodeRange_apart h'] at h
        cases h
      · exact Or.inl rfl
      · exact Or.inr (by decide)
      · exact Or.inr (by decide)
      · exact Or.inr (by decide)
      · exact Or.inl rfl

end Production

end CssLexer
