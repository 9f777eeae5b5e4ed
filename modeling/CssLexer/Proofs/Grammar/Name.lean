/-
  CssLexer.Proofs.Grammar.Name — identifiers, and what is made of them, are as long as the grammar allows.

  The grammar allows an `@` with an identifier, an identifier with a parenthesis, an identifier alone, and a `#` with a
  name. Of the ways to derive a beginning of a text from these, the lexer takes without going back one that no other
  outreaches, and tells its kind.

  Proved:
  - `ident_reach`, `take_ident_mem`: what is counted as an identifier is one, and no shorter than any.
  - `findsLongest_identLike`, `findsLongest_hash`: so for the lexemes made of identifiers and names.
  - `names_longest`: a lexeme is found exactly where a longest beginning is of its form.
-/

import CssLexer.Proofs.Extension
import CssLexer.Proofs.Grammar.Longest

namespace CssLexer

namespace Grammar

/-- The texts made of an identifier, by the kind of their token. -/
def identLike : Kind → Language Char
  | .atKeyword => exactly ['@'] * ident
  | .function => ident * exactly ['(']
  | .ident => ident
  | _ => 0

def hash : Kind → Language Char
  | .hash => exactly ['#'] * name
  | _ => 0

/-! ## Identifiers -/

theorem greedy_nameChar : Greedy (charOrEscape isNameChar) nameChar 0 := greedy_charOrEscape (by decide)

theorem greedy_nameStart : Greedy (charOrEscape isNameStart) nameStart 0 := greedy_charOrEscape (by decide)

theorem take_nameLength_mem (s : Text) : s.take (nameLength s) ∈ KStar.kstar nameChar :=
  greedy_nameChar.take_run_mem (.inr rfl)

theorem startedName_reach {v u : Text} (hv : v ∈ nameStart) (hu : u ∈ KStar.kstar nameChar) (t : Text) :
    ∃ z q, t = z ++ q ∧ Trails z ∧
      startedNameLength? (v ++ u ++ t) = some ((v ++ u).length + z.length + nameLength q) := by
  obtain ⟨c, w, rfl, hreach⟩ := greedy_nameStart.reach hv
  obtain ⟨y, r, hyr, hy, hitem⟩ := hreach (u ++ t)
  obtain ⟨z, q, ht, hz, hrun⟩ := greedy_nameChar.run_behind hy hu hyr
  have hdrop : (w ++ (u ++ t)).drop (w.length + y.length) = r := by
    rw [hyr, ← List.append_assoc, ← List.length_append, List.drop_left]
  refine ⟨z, q, ht, hz, ?_⟩
  rw [List.append_assoc, List.cons_append, startedNameLength?, hitem, Option.map_some, hdrop, nameLength, nameLength]
  simp only [List.length_append, List.length_cons, Option.some_inj]
  omega

theorem take_startedName_mem {s : Text} {n : Nat} (h : startedNameLength? s = some n) :
    ∃ v ∈ nameStart, ∃ u ∈ KStar.kstar nameChar, s.take n = v ++ u := by
  cases s with
  | nil => cases h
  | cons c r =>
    rw [startedNameLength?, Option.map_eq_some_iff] at h
    obtain ⟨k, hk, rfl⟩ := h
    rcases greedy_nameStart.found hk with hstart | ⟨-, hlast⟩
    · refine ⟨_, hstart, _, take_nameLength_mem (r.drop k), ?_⟩
      rw [Nat.add_assoc, Nat.add_comm 1, List.take_succ_cons, List.take_add, List.cons_append]
    · exact absurd hlast (Language.notMem_zero _)

theorem nameStart_head {c : Char} {w : Text} (h : c :: w ∈ nameStart) : isNameStart c = true ∨ c = '\\' := by
  rcases h with ⟨d, hd, heq⟩ | h
  · cases heq
    exact .inl hd
  · obtain ⟨v, heq, -⟩ := escape_reach h
    cases heq
    exact .inr rfl

theorem ident_reach {v : Text} (hv : v ∈ ident) (t : Text) :
    ∃ z q, t = z ++ q ∧ Trails z ∧ identLength? (v ++ t) = some (v.length + z.length + nameLength q) := by
  obtain ⟨_, ⟨dash, hdash, st, hst, rfl⟩, u, hu, rfl⟩ := hv
  obtain ⟨z, q, ht, hz, hlength⟩ := startedName_reach hst hu t
  refine ⟨z, q, ht, hz, ?_⟩
  rcases hdash with rfl | rfl
  · obtain ⟨c, w, rfl, -⟩ := greedy_nameStart.reach hst
    have hc : c ≠ '-' := by
      rintro rfl
      exact absurd (nameStart_head hst) (by decide)
    simp only [List.nil_append, List.cons_append] at hlength ⊢
    rw [identLength?_cons_of_ne hc, hlength]
  · simp only [List.cons_append, List.nil_append] at hlength ⊢
    rw [identLength?, hlength, Option.map_some]
    simp only [List.length_cons, Option.some_inj]
    omega

theorem take_ident_mem {s : Text} {n : Nat} (h : identLength? s = some n) : s.take n ∈ ident := by
  unfold identLength? at h
  split at h
  · rename_i r
    rw [Option.map_eq_some_iff] at h
    obtain ⟨k, hk, rfl⟩ := h
    obtain ⟨v, hv, u, hu, heq⟩ := take_startedName_mem hk
    rw [Nat.add_comm, List.take_succ_cons, heq]
    exact Language.append_mem_mul (Language.append_mem_mul (mem_optional.mpr (.inr (mem_exactly.mpr rfl))) hv) hu
  · obtain ⟨v, hv, u, hu, heq⟩ := take_startedName_mem h
    rw [heq]
    exact Language.append_mem_mul (Language.append_mem_mul (mem_optional.mpr (.inl rfl)) hv) hu

/-! ## Lexemes -/

theorem identLike?_of_identLength? {s : Text} {n : Nat} (h : identLength? s = some n) :
    Lexeme.identLike? s = some (Lexeme.identWith n (s.drop n)) := by
  cases s with
  | nil => cases h
  | cons c r =>
    have hc : c ≠ '@' := by
      rintro rfl
      cases h
    rw [Lexeme.identLike?_of_ne hc, h, Option.map_some]

theorem findsLongest_identLike : FindsLongest Lexeme.identLike? identLike where
  sound := by
    intro s l h
    refine ⟨Production.lexeme?_length_le (p := .identLike) h, ?_⟩
    unfold Lexeme.identLike? at h
    split at h
    · rename_i r
      rw [Option.map_eq_some_iff] at h
      obtain ⟨n, hn, rfl⟩ := h
      rw [Nat.add_comm, List.take_succ_cons]
      exact Language.append_mem_mul (mem_exactly.mpr rfl) (take_ident_mem hn)
    · rw [Option.map_eq_some_iff] at h
      obtain ⟨n, hn, rfl⟩ := h
      have hident := take_ident_mem hn
      split
      · rename_i r hr
        rw [List.take_add, hr]
        exact Language.append_mem_mul hident (mem_exactly.mpr rfl)
      · exact hident
  reach := by
    intro v k t hv
    unfold identLike at hv
    split at hv
    · obtain ⟨_, rfl, w, hw, rfl⟩ := hv
      obtain ⟨z, q, -, -, hlength⟩ := ident_reach hw t
      refine ⟨⟨.atKeyword, 1 + (w.length + z.length + nameLength q)⟩, ?_, ?_⟩
      · show Lexeme.identLike? ('@' :: (w ++ t)) = _
        rw [Lexeme.identLike?_at, hlength, Option.map_some]
      · simp only [List.length_append, List.length_singleton, Lexeme.mk.injEq, true_and]
        omega
    · obtain ⟨w, hw, _, rfl, rfl⟩ := hv
      -- no identifier takes the parenthesis along
      obtain ⟨z, q, hzq, hz, hlength⟩ := ident_reach hw ('(' :: t)
      obtain rfl := hz.eq_nil hzq (by decide) (by decide)
      obtain rfl : '(' :: t = q := hzq
      have hparen : nameLength ('(' :: t) = 0 := runLength_cons_of_none rfl
      rw [hparen, List.length_nil, Nat.add_zero] at hlength
      refine ⟨_, by rw [List.append_assoc]; exact identLike?_of_identLength? hlength, .inr ?_⟩
      rw [List.drop_left, List.length_append]
      rfl
    · obtain ⟨z, q, -, -, hlength⟩ := ident_reach hv t
      refine ⟨_, identLike?_of_identLength? hlength, ?_⟩
      unfold Lexeme.identWith
      split
      · exact .inl (by simp only []; omega)
      · simp only [Lexeme.mk.injEq, true_and]
        omega
    · exact absurd hv (Language.notMem_zero _)

theorem findsLongest_hash : FindsLongest Lexeme.hash? hash where
  sound := by
    intro s l h
    refine ⟨Production.lexeme?_length_le (p := .hash) h, ?_⟩
    cases s with
    | nil => cases h
    | cons c r =>
      by_cases hc : c = '#'
      · subst hc
        rw [Lexeme.hash?_cons] at h
        split at h
        · cases h
        · rename_i hpos
          cases h
          rw [Nat.add_comm, List.take_succ_cons]
          refine Language.append_mem_mul (mem_exactly.mpr rfl) (mem_oneOrMore (take_nameLength_mem r) ?_)
          intro hnil
          have hle : nameLength r ≤ r.length := runLength_le _ _
          rw [← List.length_eq_zero_iff, List.length_take_of_le hle] at hnil
          exact hpos hnil
      · rw [Lexeme.hash?_eq_none (by simpa using hc)] at h
        cases h
  reach := by
    intro v k t hv
    unfold hash at hv
    split at hv
    · obtain ⟨_, rfl, w, ⟨a, ha, b, hb, rfl⟩, rfl⟩ := hv
      have hle : (a ++ b).length ≤ nameLength (a ++ b ++ t) := greedy_nameChar.le_run (append_mem_star ha hb) t
      have hpos : 0 < a.length := by
        obtain ⟨c, a', rfl, -⟩ := greedy_nameChar.reach ha
        exact Nat.succ_pos _
      rw [List.length_append] at hle
      refine ⟨⟨.hash, 1 + nameLength (a ++ b ++ t)⟩, ?_, ?_⟩
      · show Lexeme.hash? ('#' :: (a ++ b ++ t)) = _
        rw [Lexeme.hash?_cons, if_neg (by omega)]
      · simp only [List.length_append, List.length_singleton, Lexeme.mk.injEq, true_and]
        omega
    · exact absurd hv (Language.notMem_zero _)

end Grammar

/-- What is found as a keyword, a function or an identifier is the longest beginning of one of the three forms, with the
kind of its form, and nothing is found exactly where no beginning has one of them. So it is with a hash and its form. -/
theorem names_longest (s : Text) :
    (∀ k n, Lexeme.identLike? s = some ⟨k, n⟩ ↔
      s.take n ∈ Grammar.identLike k ∧ Grammar.IsLongest (Grammar.anyOf Grammar.identLike) s n) ∧
    (Lexeme.identLike? s = none ↔ ∀ n, s.take n ∉ Grammar.anyOf Grammar.identLike) ∧
    (∀ k n, Lexeme.hash? s = some ⟨k, n⟩ ↔
      s.take n ∈ Grammar.hash k ∧ Grammar.IsLongest (Grammar.anyOf Grammar.hash) s n) ∧
    (Lexeme.hash? s = none ↔ ∀ n, s.take n ∉ Grammar.anyOf Grammar.hash) :=
  ⟨fun _ _ => Grammar.findsLongest_identLike.eq_some_iff, Grammar.findsLongest_identLike.eq_none_iff,
    fun _ _ => Grammar.findsLongest_hash.eq_some_iff, Grammar.findsLongest_hash.eq_none_iff⟩

end CssLexer
