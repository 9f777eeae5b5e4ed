/-
  CssLexer.Production.Progress — a production never finds an empty lexeme.

  Proved: `lexeme?_length_pos`, production by production, and with it that the selected lexeme is not empty.
-/

import CssLexer.Production

namespace CssLexer

theorem startedNameLength?_pos {s : Text} {n : Nat} (h : startedNameLength? s = some n) : 0 < n := by
  cases s with
  | nil => simp [startedNameLength?] at h
  | cons c r =>
    simp only [startedNameLength?, Option.map_eq_some_iff] at h
    obtain ⟨k, _, rfl⟩ := h
    omega

theorem identLength?_pos {s : Text} {n : Nat} (h : identLength? s = some n) : 0 < n := by
  unfold identLength? at h
  split at h
  · simp only [Option.map_eq_some_iff] at h
    obtain ⟨k, _, rfl⟩ := h
    omega
  · exact startedNameLength?_pos h

theorem numberLength?_pos {s : Text} {n : Nat} (h : numberLength? s = some n) : 0 < n := by
  simp only [numberLength?] at h
  split at h <;> cases h
  exact Nat.succ_pos _

theorem le_length_closeUrl (n : Nat) (s : Text) : n ≤ (Lexeme.closeUrl n s).length := by
  simp only [Lexeme.closeUrl]
  split <;> simp only [] <;> omega

namespace Production

theorem lexeme?_length_pos {p : Production} {s : Text} {l : Lexeme} (h : p.lexeme? s = some l) : 0 < l.length := by
  cases p <;> simp only [lexeme?] at h
  case comment =>
    unfold Lexeme.comment? at h
    split at h
    · simp only at h
      split at h <;> cases h <;> simp only [] <;> omega
    · cases h
  case whitespace =>
    unfold Lexeme.space? at h
    split at h <;> cases h
    exact Nat.succ_pos _
  case string =>
    simp only [Lexeme.string?, Option.map_eq_some_iff] at h
    obtain ⟨⟨n, closed⟩, hq, rfl⟩ := h
    unfold quotation? at hq
    split at hq
    · cases hq
    · simp only at hq
      split at hq
      · split at hq <;> cases hq <;> simp only [] <;> omega
      · cases hq
  case uri =>
    simp only [Lexeme.uri?, Option.map_eq_some_iff] at h
    obtain ⟨rest, _, rfl⟩ := h
    split
    · simp only []; omega
    · exact Nat.lt_of_lt_of_le (by omega) (le_length_closeUrl _ _)
    · exact Nat.lt_of_lt_of_le (by omega) (le_length_closeUrl _ _)
  case unicodeRange =>
    unfold Lexeme.unicodeRange? at h
    split at h
    · simp only at h
      split at h
      · split at h
        · cases h
        · split at h <;> cases h <;> simp only [] <;> omega
      · cases h
    · cases h
  case embedding => unfold Lexeme.embedding? at h; split at h <;> cases h <;> decide
  case attributeOperator => unfold Lexeme.attributeOperator? at h; split at h <;> cases h <;> decide
  case numeric =>
    simp only [Lexeme.numeric?, Option.map_eq_some_iff] at h
    obtain ⟨n, hn, rfl⟩ := h
    have := numberLength?_pos hn
    split
    · simp only []; omega
    · split <;> simp only [] <;> omega
  case hash =>
    unfold Lexeme.hash? at h
    split at h
    · split at h
      · cases h
      · cases h; simp only []; omega
    · cases h
  case identLike =>
    unfold Lexeme.identLike? at h
    split at h
    · simp only [Option.map_eq_some_iff] at h
      obtain ⟨n, _, rfl⟩ := h
      simp only []; omega
    · simp only [Option.map_eq_some_iff] at h
      obtain ⟨n, hn, rfl⟩ := h
      have := identLength?_pos hn
      split <;> simp only [] <;> omega
  case delim =>
    unfold Lexeme.delim? at h
    split at h
    · cases h
    · split at h
      · cases h
      · cases h; decide

theorem select?_lexeme? {s : Text} {p : Production} {l : Lexeme} (h : select? s = some (p, l)) :
    p.lexeme? s = some l := by
  obtain ⟨q, _, hq⟩ := List.exists_of_findSome?_eq_some h
  simp only [Option.map_eq_some_iff, Prod.mk.injEq] at hq
  obtain ⟨_, hq, rfl, rfl⟩ := hq
  exact hq

end Production

end CssLexer
