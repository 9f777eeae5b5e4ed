/-
  CssLexer.Proofs.Grammar.UnicodeRange — ranges of code points are as long as the grammar allows.

  The grammar may stop at any digit and any question mark, and before a second bound. The lexer takes as many digits as
  there are, then as many question marks as there is place for, and a second bound only where it has taken none. Nothing
  is lost by that order: a question mark or a dash ends the digits for the grammar too, and behind a question mark the
  grammar has no second bound.

  Proved:
  - `unicodeRange?_sound`: what is found is a range of the grammar.
  - `unicodeRange?_of_places`, `unicodeRange?_of_bounds`: behind a range of either form one is found that is no shorter.
  - `ranges_longest`: so a lexeme is found exactly where a range is, and it is the longest.
-/

import CssLexer.Proofs.Extension
import CssLexer.Proofs.Grammar.Longest

namespace CssLexer

namespace Grammar

def range : Kind → Language Char
  | .unicodeRange => unicodeRange
  | _ => 0

theorem mem_range_iff {v : Text} {k : Kind} : v ∈ range k ↔ k = .unicodeRange ∧ v ∈ unicodeRange := by
  unfold range
  split
  · simp
  · rename_i hk
    constructor
    · intro h
      exact absurd h (Language.notMem_zero v)
    · intro h
      exact absurd h.1 hk

theorem anyOf_range : anyOf range = unicodeRange := by
  ext v
  constructor
  · intro ⟨k, hk⟩
    exact (mem_range_iff.mp hk).2
  · intro h
    exact ⟨.unicodeRange, h⟩

/-! ## What is found -/

/-- The places that question marks take behind the digits. -/
def wildcards (r : Text) : Nat :=
  countUpTo (6 - countUpTo 6 isHexDigit r) (· == '?') (r.drop (countUpTo 6 isHexDigit r))

variable {u : Char} {a b r s t v : Text}

theorem unicodeRange?_cons (hu : isLetterOf 'u' u = true) (r : Text) :
    Lexeme.unicodeRange? (u :: '+' :: r) =
      if countUpTo 6 isHexDigit r + wildcards r = 0 then none
      else if wildcards r = 0 then
        some ⟨.unicodeRange, 2 + countUpTo 6 isHexDigit r + upperBoundLength (r.drop (countUpTo 6 isHexDigit r))⟩
      else some ⟨.unicodeRange, 2 + countUpTo 6 isHexDigit r + wildcards r⟩ := by
  rw [Lexeme.unicodeRange?, if_pos hu]
  rfl

theorem take_places_mem (h : countUpTo 6 isHexDigit r + wildcards r ≠ 0) :
    r.take (countUpTo 6 isHexDigit r + wildcards r) ∈ places := by
  have hdigits := countUpTo_le_limit 6 isHexDigit r
  have hle := countUpTo_le 6 isHexDigit r
  have hwildcards : wildcards r ≤ 6 - countUpTo 6 isHexDigit r := countUpTo_le_limit _ _ _
  have hle' : wildcards r ≤ (r.drop (countUpTo 6 isHexDigit r)).length := countUpTo_le _ _ _
  refine ⟨_, _, List.take_add, fun _ => of_mem_take_countUpTo, ?_, ?_⟩
  · intro c hc
    have hmark : (c == '?') = true := of_mem_take_countUpTo (p := (· == '?')) hc
    exact beq_iff_eq.mp hmark
  · rw [List.length_take, List.length_drop] at *
    omega

theorem take_upperBound_mem (h : upperBoundLength r ≠ 0) :
    r.take (upperBoundLength r) ∈ exactly ['-'] * between 1 6 isHexDigit := by
  rw [upperBoundLength_eq] at h ⊢
  obtain ⟨e, he, heq⟩ := take_markedLength_mem (fun _ => take_countUpTo_mem) h
  rw [heq]
  exact Language.append_mem_mul (mem_exactly.mpr rfl) he

theorem unicodeRange?_sound {l : Lexeme} (h : Lexeme.unicodeRange? s = some l) :
    l.kind = .unicodeRange ∧ s.take l.length ∈ unicodeRange := by
  unfold Lexeme.unicodeRange? at h
  split at h
  · rename_i u r
    by_cases hu : isLetterOf 'u' u = true
    · have hopening : [u, '+'] ∈ one (isLetterOf 'u') * exactly ['+'] :=
        Language.append_mem_mul (singleton_mem_one.mpr hu) (mem_exactly.mpr rfl)
      have htake (n : Nat) : (u :: '+' :: r).take (2 + n) = [u, '+'] ++ r.take n := by
        rw [Nat.add_comm]
        rfl
      rw [← Lexeme.unicodeRange?, unicodeRange?_cons hu] at h
      split at h
      · cases h
      · rename_i hany
        have hplaces := take_places_mem hany
        split at h
        · rename_i hnone
          cases h
          refine ⟨rfl, ?_⟩
          rw [hnone, Nat.add_zero] at hany hplaces
          by_cases hbound : upperBoundLength (r.drop (countUpTo 6 isHexDigit r)) = 0
          · rw [hbound, Nat.add_zero, htake]
            exact Language.append_mem_mul hopening (.inl hplaces)
          · rw [Nat.add_assoc, htake, List.take_add]
            refine Language.append_mem_mul hopening (.inr ?_)
            rw [mul_assoc]
            exact Language.append_mem_mul (take_countUpTo_mem hany) (take_upperBound_mem hbound)
        · cases h
          refine ⟨rfl, ?_⟩
          rw [Nat.add_assoc, htake]
          exact Language.append_mem_mul hopening (.inl hplaces)
    · rw [if_neg hu] at h
      cases h
  · cases h

/-! ## What the grammar derives is found -/

theorem unicodeRange?_of_places (hu : isLetterOf 'u' u = true) (hv : v ∈ places) (t : Text) :
    ∃ n, Lexeme.unicodeRange? (u :: '+' :: (v ++ t)) = some ⟨.unicodeRange, n⟩ ∧ 2 + v.length ≤ n := by
  obtain ⟨a, b, rfl, ha, hb, hpos, hle⟩ := hv
  rw [List.length_append] at hpos hle ⊢
  have hdigits : countUpTo 6 isHexDigit (a ++ b ++ t) = a.length + countUpTo (6 - a.length) isHexDigit (b ++ t) := by
    rw [List.append_assoc, countUpTo_append_of_all ha (by omega)]
  cases b with
  | nil =>
    rw [List.append_nil, List.nil_append] at hdigits
    rw [List.length_nil] at hpos ⊢
    rw [List.append_nil, unicodeRange?_cons hu, if_neg (by omega)]
    split <;> exact ⟨_, rfl, by omega⟩
  | cons c b =>
    have hstop : countUpTo (6 - a.length) isHexDigit (c :: b ++ t) = 0 := by
      rw [hb c List.mem_cons_self]
      exact countUpTo_of_not (by decide) _ _
    rw [hstop, Nat.add_zero] at hdigits
    have hmarks : ∀ d ∈ c :: b, (d == '?') = true := fun d hd => beq_iff_eq.mpr (hb d hd)
    have hwildcards : wildcards (a ++ (c :: b) ++ t) =
        (c :: b).length + countUpTo (6 - a.length - (c :: b).length) (· == '?') t := by
      rw [wildcards, hdigits, List.append_assoc, List.drop_left, countUpTo_append_of_all hmarks (by omega)]
    rw [List.length_cons] at hwildcards hpos hle ⊢
    rw [unicodeRange?_cons hu, if_neg (by omega), if_neg (by omega)]
    exact ⟨_, rfl, by omega⟩

theorem unicodeRange?_of_bounds (hu : isLetterOf 'u' u = true) (ha : a ∈ between 1 6 isHexDigit)
    (hb : b ∈ between 1 6 isHexDigit) (t : Text) :
    ∃ n, Lexeme.unicodeRange? (u :: '+' :: (a ++ '-' :: b ++ t)) = some ⟨.unicodeRange, n⟩ ∧
      2 + (a ++ '-' :: b).length ≤ n := by
  obtain ⟨hpos, hle, ha⟩ := ha
  obtain ⟨hpos', hle', hb⟩ := hb
  -- the dash ends the digits, and stands where a question mark would have to
  have hdigits : countUpTo 6 isHexDigit (a ++ '-' :: b ++ t) = a.length := by
    rw [List.append_assoc, countUpTo_append_of_all ha hle, List.cons_append, countUpTo_of_not (by decide), Nat.add_zero]
  have hwildcards : wildcards (a ++ '-' :: b ++ t) = 0 := by
    rw [wildcards, hdigits, List.append_assoc, List.drop_left, List.cons_append]
    exact countUpTo_of_not (by decide) _ _
  have hcount : countUpTo 6 isHexDigit (b ++ t) = b.length + countUpTo (6 - b.length) isHexDigit t :=
    countUpTo_append_of_all hb hle' t
  have hbound : upperBoundLength ('-' :: b ++ t) = 1 + countUpTo 6 isHexDigit (b ++ t) := by
    rw [upperBoundLength_eq, List.cons_append, markedLength, if_pos rfl, if_neg (by omega)]
  rw [unicodeRange?_cons hu, hdigits, hwildcards, if_neg (by omega), if_pos rfl, List.append_assoc, List.drop_left,
    hbound, hcount]
  refine ⟨_, rfl, ?_⟩
  rw [List.length_append, List.length_cons]
  omega

theorem unicodeRange?_reach (hv : v ∈ unicodeRange) (t : Text) :
    ∃ n, Lexeme.unicodeRange? (v ++ t) = some ⟨.unicodeRange, n⟩ ∧ v.length ≤ n := by
  obtain ⟨_, ⟨_, ⟨u, hu, rfl⟩, _, rfl, rfl⟩, x, hx, rfl⟩ := hv
  have hlength (x : Text) : ([u] ++ ['+'] ++ x).length = 2 + x.length := by
    rw [List.length_append]
    rfl
  rcases hx with hx | ⟨_, ⟨a, ha, _, rfl, rfl⟩, b, hb, rfl⟩
  · rw [hlength]
    exact unicodeRange?_of_places hu hx t
  · rw [hlength]
    have hfound := unicodeRange?_of_bounds hu ha hb t
    simpa using hfound

theorem findsLongest_unicodeRange : FindsLongest Lexeme.unicodeRange? range where
  sound := by
    intro s l h
    obtain ⟨hkind, hmem⟩ := unicodeRange?_sound h
    exact ⟨Production.lexeme?_length_le (p := .unicodeRange) h, mem_range_iff.mpr ⟨hkind, hmem⟩⟩
  reach := by
    intro v k t hv
    obtain ⟨rfl, hv⟩ := mem_range_iff.mp hv
    obtain ⟨n, hn, hle⟩ := unicodeRange?_reach hv t
    refine ⟨_, hn, ?_⟩
    simp only [Lexeme.mk.injEq, true_and]
    omega

end Grammar

/-- What is found is the longest beginning that is a range of code points, by places or by two bounds, and nothing is
found exactly where no beginning is one. -/
theorem ranges_longest (s : Text) :
    (∀ k n, Lexeme.unicodeRange? s = some ⟨k, n⟩ ↔
      k = .unicodeRange ∧ Grammar.IsLongest Grammar.unicodeRange s n) ∧
    (Lexeme.unicodeRange? s = none ↔ ∀ n, s.take n ∉ Grammar.unicodeRange) := by
  refine ⟨?_, ?_⟩
  · intro k n
    rw [Grammar.findsLongest_unicodeRange.eq_some_iff, Grammar.mem_range_iff, Grammar.anyOf_range]
    constructor
    · intro ⟨hform, hlongest⟩
      exact ⟨hform.1, hlongest⟩
    · intro ⟨hk, hlongest⟩
      exact ⟨⟨hk, hlongest.2.1⟩, hlongest⟩
  · rw [Grammar.findsLongest_unicodeRange.eq_none_iff, Grammar.anyOf_range]

end CssLexer
