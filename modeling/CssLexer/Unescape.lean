/-
  CssLexer.Unescape — the text that a value with backslash escapes denotes.

  A backslash and hexadecimal digits stand for the character with that code point, a blank behind them included; a
  backslash and a newline stand for nothing; a backslash and any other character stand for that character. A backslash
  at the end is dropped. The decoder keeps its own count of what an escape covers, apart from the lexer's.

  Proved: `unescape` unfolds one character or one escape at a time (`unescape_cons`).
-/

import CssLexer.Text

namespace CssLexer

/-- The character that a hexadecimal escape names: U+FFFD for zero, for a surrogate and for a number above U+10FFFF. -/
def escapedScalar (n : Nat) : Char := if n ≠ 0 ∧ n.isValidChar then Char.ofNat n else '\uFFFD'

/-- What is behind the blank that ends a hexadecimal escape, if there is one. -/
def afterTerminator : Text → Text
  | '\r' :: '\n' :: r => r
  | c :: r => if isWhitespace c then r else c :: r
  | [] => []

/-- What a backslash with `s` behind it stands for, and what follows the escape. -/
def decodeEscape (s : Text) : Option Char × Text :=
  match s with
  | [] => (none, [])
  | '\r' :: '\n' :: r => (none, r)
  | c :: r =>
    if isHexDigit c then
      let digits := (s.take 6).takeWhile isHexDigit
      (some (escapedScalar (hexValue digits)), afterTerminator (s.drop digits.length))
    else if isNewline c then (none, r)
    else (some c, r)

theorem afterTerminator_length_le (s : Text) : (afterTerminator s).length ≤ s.length := by
  unfold afterTerminator
  split
  · simp only [List.length_cons]; omega
  · split
    · simp only [List.length_cons]; omega
    · exact Nat.le_refl _
  · exact Nat.le_refl _

theorem decodeEscape_length_le (s : Text) : (decodeEscape s).2.length ≤ s.length := by
  unfold decodeEscape
  split
  · exact Nat.le_refl _
  · simp only [List.length_cons]; omega
  · split
    · refine Nat.le_trans (afterTerminator_length_le _) ?_
      rw [List.length_drop]
      omega
    · split <;> simp only [List.length_cons] <;> omega

/-- The text that `s` denotes, behind the characters in `before`, the last of which comes first. -/
def unescapeBehind (before s : Text) : Text :=
  match s with
  | [] => before.reverse
  | c :: r =>
    if c = '\\' then unescapeBehind ((decodeEscape r).1.toList ++ before) (decodeEscape r).2
    else unescapeBehind (c :: before) r
termination_by s.length
decreasing_by
  · have := decodeEscape_length_le r
    simp only [List.length_cons]
    omega
  · simp only [List.length_cons]
    omega

def unescape (s : Text) : Text := unescapeBehind [] s

/-- The text that a value denotes, or nothing if it has no backslash and so denotes itself. -/
def unescape? (s : Text) : Option Text := if s.contains '\\' then some (unescape s) else none

theorem unescapeBehind_append (xs before s : Text) :
    unescapeBehind (xs ++ before) s = before.reverse ++ unescapeBehind xs s := by
  fun_induction unescapeBehind xs s with
  | case1 xs => simp [unescapeBehind]
  | case2 xs r ih => rw [unescapeBehind, ite_cond_eq_true _ _ (by simp), ← List.append_assoc, ih]
  | case3 xs c r hc ih => rw [unescapeBehind, ite_cond_eq_false _ _ (by simp [hc]), ← List.cons_append, ih]

@[simp] theorem unescape_nil : unescape [] = [] := by simp [unescape, unescapeBehind]

theorem unescape_cons (c : Char) (r : Text) :
    unescape (c :: r) =
      if c = '\\' then (decodeEscape r).1.toList ++ unescape (decodeEscape r).2 else c :: unescape r := by
  unfold unescape
  rw [unescapeBehind]
  split
  · have := unescapeBehind_append [] (decodeEscape r).1.toList (decodeEscape r).2
    rw [List.nil_append] at this
    rw [List.append_nil, this]
    cases (decodeEscape r).1 <;> rfl
  · exact unescapeBehind_append [] [c] r

end CssLexer
