/-
  CssLexer.Proofs.MaximalMunch — the first production that finds a lexeme finds the longest.

  A production `Wins` a text if it opens there and whatever else opens yields to it: the single character to all, an
  identifier to a url and to a range of code points. A text has one winner at most. Every `Orderly` table tries a
  winner before what yields to it, so all orderly tables pick the same lexeme, and what yields is never longer.

  Proved:
  - `firstOf_wins`, `firstOf_eq_firstOf`: the first of an orderly table wins; two orderly tables agree.
  - `Wins.length_le`: no other production finds a longer lexeme.
  - `maximal_munch`: so the first lexeme is the longest one, at most one production finds a lexeme besides the single
    character and the overlapping pairs, and reordering a table within these bounds changes nothing.
-/

import CssLexer.Production.Progress
import CssLexer.Proofs.Bytes.Cut
import CssLexer.Proofs.Openings
import Mathlib.Data.List.MinMax

namespace CssLexer

/-! ## The lengths of overlapping lexemes -/

theorem nameLength_cons_of_isNameChar {c : Char} (h : isNameChar c = true) (r : Text) :
    nameLength (c :: r) = 1 + nameLength r := by
  rw [nameLength, runLength_cons, charOrEscape, if_pos h]
  simp [nameLength]

theorem isNameChar_of_letter :
    ∀ c, (isLetterOf 'r' c = true → isNameChar c = true) ∧ (isLetterOf 'l' c = true → isNameChar c = true) := by
  apply forall_char_of_ascii
  · decide
  · intro c hc
    simp [isNameChar, isNameStart, hc]

theorem identLength?_of_isNameStart {c : Char} (h : isNameStart c = true) (r : Text) :
    identLength? (c :: r) = some (1 + nameLength r) := by
  have hdash : c ≠ '-' := by rintro rfl; revert h; decide
  rw [identLength?, startedNameLength?, charOrEscape, if_pos h]
  · simp
  · rintro _ ⟨⟩
    exact hdash rfl

theorem identLike?_of_isNameStart {c : Char} (h : isNameStart c = true) (r : Text) :
    Lexeme.identLike? (c :: r) =
      if (r.drop (nameLength r)).head? = some '(' then some ⟨.function, 1 + nameLength r + 1⟩
      else some ⟨.ident, 1 + nameLength r⟩ := by
  have hat : c ≠ '@' := by rintro rfl; revert h; decide
  rw [Lexeme.identLike?, identLength?_of_isNameStart h, Option.map_some, drop_one_add]
  · by_cases hopening : (r.drop (nameLength r)).head? = some '('
    · obtain ⟨t, ht⟩ := List.head?_eq_some_iff.mp hopening
      rw [if_pos hopening, ht]
      rfl
    · rw [if_neg hopening]
      split
      · rename_i t ht
        exact absurd (by rw [ht]; rfl) hopening
      · rfl
  · rintro _ ⟨⟩
    exact hat rfl

theorem isNameStart_of_letterU {c : Char} (h : isLetterOf 'u' c = true) : isNameStart c = true := by
  rcases isLetterOf_u_iff.mp h with rfl | rfl <;> decide

/-- Where a url opens, the identifier is the function name with its parenthesis. -/
theorem identLike?_of_uri {s : Text} (h : Production.uri.opens s = true) :
    Lexeme.identLike? s = some ⟨.function, 4⟩ := by
  simp only [Production.opens, afterUrlOpening?] at h
  split at h
  · rename_i u r l rest
    by_cases hall : (isLetterOf 'u' u && isLetterOf 'r' r && isLetterOf 'l' l) = true
    · simp only [Bool.and_eq_true] at hall
      have hr := (isNameChar_of_letter r).1 hall.1.2
      have hl := (isNameChar_of_letter l).2 hall.2
      have hparen : nameLength ('(' :: rest) = 0 := (nameLength_eq_zero_iff _).mpr rfl
      have hlen : nameLength (r :: l :: '(' :: rest) = 2 := by
        rw [nameLength_cons_of_isNameChar hr, nameLength_cons_of_isNameChar hl, hparen]
      rw [identLike?_of_isNameStart (isNameStart_of_letterU hall.1.1), hlen]
      rfl
    · simp [hall] at h
  · cases h

/-- Where a range of code points opens, the identifier is its letter alone. -/
theorem identLike?_of_unicodeRange {s : Text} (h : Production.unicodeRange.opens s = true) :
    Lexeme.identLike? s = some ⟨.ident, 1⟩ := by
  simp only [Production.opens] at h
  split at h
  · rename_i u r
    have hplus : nameLength ('+' :: r) = 0 := (nameLength_eq_zero_iff _).mpr rfl
    rw [identLike?_of_isNameStart (isNameStart_of_letterU (Bool.and_eq_true_iff.mp h).1), hplus]
    rfl
  · cases h

theorem four_le_of_uri? {s : Text} {l : Lexeme} (h : Lexeme.uri? s = some l) : 4 ≤ l.length := by
  simp only [Lexeme.uri?, Option.map_eq_some_iff] at h
  obtain ⟨rest, _, rfl⟩ := h
  split
  · simp only []; omega
  · exact Nat.le_trans (by omega) (le_length_closeUrl _ _)
  · exact Nat.le_trans (by omega) (le_length_closeUrl _ _)

theorem Lexeme.delim?_eq_some {s : Text} {l : Lexeme} (h : Lexeme.delim? s = some l) : l = ⟨.delim, 1⟩ := by
  unfold Lexeme.delim? at h
  split at h
  · cases h
  · split at h
    · cases h
    · cases h
      rfl

namespace Production

theorem opens_of_lexeme? {p : Production} {s : Text} {l : Lexeme} (h : p.lexeme? s = some l) : p.opens s = true := by
  rw [← isSome_lexeme?, h]
  rfl

/-! ## Winners -/

/-- A production wins a text if it opens there and everything else that opens yields to it. -/
structure Wins (p : Production) (s : Text) : Prop where
  opens : p.opens s = true
  yields : ∀ q, q.opens s = true → q = p ∨ q = delim ∨ (q = identLike ∧ (p = uri ∨ p = unicodeRange))

theorem Wins.unique {p q : Production} {s : Text} (hp : Wins p s) (hq : Wins q s) : p = q := by
  rcases hp.yields q hq.opens with h | h | ⟨h, h'⟩
  · exact h.symm
  · rcases hq.yields p hp.opens with h1 | h1 | ⟨-, h1⟩
    · exact h1
    · exact h1.trans h.symm
    · rcases h1 with h1 | h1 <;> cases h1.symm.trans h
  · rcases hq.yields p hp.opens with h1 | h1 | ⟨h1, -⟩
    · exact h1
    · rcases h' with h' | h' <;> cases h1.symm.trans h'
    · rcases h' with h' | h' <;> cases h1.symm.trans h'

theorem Wins.length_le {p q : Production} {s : Text} {l m : Lexeme} (h : Wins p s) (hp : p.lexeme? s = some l)
    (hq : q.lexeme? s = some m) : m.length ≤ l.length := by
  have hpos : 1 ≤ l.length := lexeme?_length_pos hp
  rcases h.yields q (opens_of_lexeme? hq) with rfl | rfl | ⟨rfl, rfl | rfl⟩
  · rw [hp] at hq
    cases hq
    exact Nat.le_refl _
  · rw [Lexeme.delim?_eq_some hq]
    exact hpos
  · simp only [lexeme?] at hp hq
    rw [identLike?_of_uri h.opens] at hq
    cases hq
    exact four_le_of_uri? hp
  · simp only [lexeme?] at hq
    rw [identLike?_of_unicodeRange h.opens] at hq
    cases hq
    exact hpos

/-! ## Tables -/

def firstOf (table : List Production) (s : Text) : Option (Production × Lexeme) :=
  table.findSome? fun p => (p.lexeme? s).map (p, ·)

/-- What the productions of a table find at the start of a text, each for itself, in the order of the table. -/
def candidates (table : List Production) (s : Text) : List (Production × Lexeme) :=
  table.filterMap fun p => (p.lexeme? s).map (p, ·)

/-- A table of all productions with urls and ranges of code points before identifiers and the single character
last. -/
structure Orderly (table : List Production) : Prop where
  perm : table.Perm all
  uri_first : table.idxOf uri < table.idxOf identLike
  unicodeRange_first : table.idxOf unicodeRange < table.idxOf identLike
  delim_last : ∀ p, p ≠ delim → table.idxOf p < table.idxOf delim

theorem orderly_all : Orderly all := by
  refine ⟨List.Perm.refl _, by decide, by decide, ?_⟩
  intro p hp
  cases p
  case delim => exact absurd rfl hp
  all_goals decide

theorem Orderly.mem {table : List Production} (h : Orderly table) (p : Production) : p ∈ table :=
  h.perm.mem_iff.mpr (mem_all p)

theorem firstOf_lexeme? {table : List Production} {s : Text} {p : Production} {l : Lexeme}
    (h : firstOf table s = some (p, l)) : p.lexeme? s = some l := by
  obtain ⟨q, _, hq⟩ := List.exists_of_findSome?_eq_some h
  simp only [Option.map_eq_some_iff, Prod.mk.injEq] at hq
  obtain ⟨_, hq, rfl, rfl⟩ := hq
  exact hq

theorem opens_before_firstOf {table : List Production} {s : Text} {p q : Production} {l : Lexeme}
    (h : firstOf table s = some (p, l)) (hlt : table.idxOf q < table.idxOf p) : q.opens s = false := by
  obtain ⟨before, a, behind, rfl, ha, hnone⟩ := List.findSome?_eq_some_iff.mp h
  simp only [Option.map_eq_some_iff, Prod.mk.injEq] at ha
  obtain ⟨_, -, rfl, -⟩ := ha
  have hq : q ∈ before := by
    by_contra hq
    rw [List.idxOf_append, List.idxOf_append, if_neg hq] at hlt
    split at hlt
    · rename_i hp
      have := List.idxOf_lt_length_of_mem hp
      omega
    · rw [List.idxOf_cons_self] at hlt
      omega
  have hnone := hnone q hq
  rw [Option.map_eq_none_iff] at hnone
  rw [← isSome_lexeme?, hnone]
  rfl

/-- The first of an orderly table wins. -/
theorem firstOf_wins {table : List Production} (ht : Orderly table) {s : Text} {p : Production} {l : Lexeme}
    (h : firstOf table s = some (p, l)) : Wins p s := by
  have hp : p.opens s = true := opens_of_lexeme? (firstOf_lexeme? h)
  have hbefore : ∀ q, q.opens s = true → ¬ table.idxOf q < table.idxOf p := by
    intro q hq hlt
    rw [opens_before_firstOf h hlt] at hq
    cases hq
  refine ⟨hp, ?_⟩
  intro q hq
  by_cases hqd : q = delim
  · exact Or.inr (Or.inl hqd)
  by_cases hpd : p = delim
  · subst hpd
    exact absurd (ht.delim_last q hqd) (hbefore q hq)
  rcases opens_apart hpd hqd hp hq with rfl | hm
  · exact Or.inl rfl
  · simp only [overlapping, List.mem_cons, Prod.mk.injEq, List.not_mem_nil, or_false] at hm
    rcases hm with ⟨rfl, rfl⟩ | ⟨rfl, rfl⟩ | ⟨rfl, rfl⟩ | ⟨rfl, rfl⟩
    · exact Or.inr (Or.inr ⟨rfl, Or.inl rfl⟩)
    · exact absurd ht.uri_first (hbefore _ hq)
    · exact Or.inr (Or.inr ⟨rfl, Or.inr rfl⟩)
    · exact absurd ht.unicodeRange_first (hbefore _ hq)

theorem firstOf_eq_none_iff {table : List Production} (ht : Orderly table) {s : Text} :
    firstOf table s = none ↔ ∀ p : Production, p.lexeme? s = none := by
  simp only [firstOf, List.findSome?_eq_none_iff, Option.map_eq_none_iff]
  exact ⟨fun h p => h p (ht.mem p), fun h p _ => h p⟩

theorem firstOf_eq_firstOf {table table' : List Production} (ht : Orderly table) (ht' : Orderly table') (s : Text) :
    firstOf table s = firstOf table' s := by
  cases h : firstOf table s with
  | none => exact ((firstOf_eq_none_iff ht').mpr ((firstOf_eq_none_iff ht).mp h)).symm
  | some found =>
    obtain ⟨p, l⟩ := found
    cases h' : firstOf table' s with
    | none =>
      have := (firstOf_eq_none_iff ht').mp h' p
      rw [firstOf_lexeme? h] at this
      cases this
    | some found' =>
      obtain ⟨q, m⟩ := found'
      have hpq : p = q := (firstOf_wins ht h).unique (firstOf_wins ht' h')
      subst hpq
      have hl := firstOf_lexeme? h
      rw [firstOf_lexeme? h'] at hl
      cases hl
      rfl

/-! ## The longest match -/

theorem select?_eq_firstOf (s : Text) : select? s = firstOf all s := rfl

/-- The first candidate is the longest, the first of the longest ones, however lengths are measured. -/
theorem select?_eq_argmax {size : Nat → Nat} (hsize : ∀ {m n : Nat}, m ≤ n → size m ≤ size n) (s : Text) :
    select? s = (candidates all s).argmax fun c => size c.2.length := by
  have hhead : select? s = (candidates all s).head? := List.head?_filterMap.symm
  cases hc : candidates all s with
  | nil => rw [hhead, hc]; rfl
  | cons best rest =>
    rw [hhead, hc, List.head?_cons, eq_comm, List.argmax_eq_some_iff]
    obtain ⟨p, l⟩ := best
    have hsel : firstOf all s = some (p, l) := by rw [← select?_eq_firstOf, hhead, hc]; rfl
    refine ⟨List.mem_cons_self, ?_, ?_⟩
    · intro c hm
      obtain ⟨q, m⟩ := c
      rw [← hc, candidates, List.mem_filterMap] at hm
      obtain ⟨q', -, hq⟩ := hm
      simp only [Option.map_eq_some_iff, Prod.mk.injEq] at hq
      obtain ⟨_, hq, rfl, rfl⟩ := hq
      exact hsize ((firstOf_wins orderly_all hsel).length_le (firstOf_lexeme? hsel) hq)
    · intro c _ _
      simp

/-- Maximal munch. What the first production to find a lexeme at the start of a text finds is as long as anything that
any production finds there, so the first match is the longest match, and the first of the longest, in characters and in
bytes; two productions find lexemes in one text only if one is the single character or they are an identifier with a
url or with a range of code points, never all three; and every table with urls and ranges before identifiers and the
single character last picks the same production and lexeme. -/
theorem maximal_munch (s : Text) :
    (∀ p l, select? s = some (p, l) → ∀ (q : Production) (m : Lexeme), q.lexeme? s = some m →
      m.length ≤ l.length ∧ s.bytesIn m.length ≤ s.bytesIn l.length) ∧
    select? s = (candidates all s).argmax (fun c => c.2.length) ∧
    select? s = (candidates all s).argmax (fun c => s.bytesIn c.2.length) ∧
    (∀ p q : Production, p ≠ delim → q ≠ delim → (p.lexeme? s).isSome = true → (q.lexeme? s).isSome = true →
      p = q ∨ (p, q) ∈ [(uri, identLike), (identLike, uri), (unicodeRange, identLike), (identLike, unicodeRange)]) ∧
    ¬ ((uri.lexeme? s).isSome = true ∧ (unicodeRange.lexeme? s).isSome = true) ∧
    (∀ table : List Production, table.Perm all → table.idxOf uri < table.idxOf identLike →
      table.idxOf unicodeRange < table.idxOf identLike → (∀ p, p ≠ delim → table.idxOf p < table.idxOf delim) →
      firstOf table s = select? s) := by
  refine ⟨?_, select?_eq_argmax id s, select?_eq_argmax s.bytesIn_mono s, ?_, ?_, ?_⟩
  · intro p l h q m hq
    have hle : m.length ≤ l.length := (firstOf_wins orderly_all h).length_le (firstOf_lexeme? h) hq
    exact ⟨hle, Text.bytesIn_mono s hle⟩
  · intro p q hp hq h h'
    rw [isSome_lexeme?] at h h'
    exact opens_apart hp hq h h'
  · rintro ⟨h, h'⟩
    rw [isSome_lexeme?] at h h'
    rw [uri_unicodeRange_apart h] at h'
    cases h'
  · intro table hperm huri hrange hdelim
    exact firstOf_eq_firstOf ⟨hperm, huri, hrange, hdelim⟩ orderly_all s

end Production

end CssLexer
