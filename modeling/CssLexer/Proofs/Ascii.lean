/-
  CssLexer.Proofs.Ascii — facts about character classes, checked on ASCII and argued beyond it.

  Every class but `isNonascii`, and those that contain it, is a class of ASCII characters; so a fact about classes
  follows from its 128 ASCII cases and one case for the rest (`forall_char_of_ascii`).
-/

import CssLexer.Text

namespace CssLexer

theorem forall_char_of_ascii {P : Char → Prop} (ascii : ∀ n < 128, P (Char.ofNat n))
    (nonascii : ∀ c, isNonascii c = true → P c) (c : Char) : P c := by
  by_cases hc : isNonascii c = true
  · exact nonascii c hc
  · have hlt : c.toNat < 128 := by simpa [isNonascii] using hc
    have h := ascii c.toNat hlt
    rwa [Char.ofNat_toNat] at h

theorem isNonascii_iff {c : Char} : isNonascii c = true ↔ 128 ≤ c.toNat := by simp [isNonascii]

theorem le_char_iff {c d : Char} : c ≤ d ↔ c.toNat ≤ d.toNat := by
  rw [Char.le_def, UInt32.le_iff_toNat_le]
  rfl

/-! ## Beyond ASCII -/

section Nonascii

variable {c : Char} (hc : isNonascii c = true)
include hc

theorem ne_of_nonascii {d : Char} (hd : isNonascii d = false) : c ≠ d := by
  rintro rfl
  rw [hc] at hd
  cases hd

theorem beq_of_nonascii {d : Char} (hd : isNonascii d = false) : (c == d) = false :=
  beq_eq_false_iff_ne.mpr (ne_of_nonascii hc hd)

theorem isWhitespace_of_nonascii : isWhitespace c = false := by
  have h {d : Char} : isNonascii d = false → (c == d) = false := beq_of_nonascii hc
  simp [isWhitespace, h, show isNonascii ' ' = false by decide, show isNonascii '\t' = false by decide,
    show isNonascii '\n' = false by decide, show isNonascii '\r' = false by decide,
    show isNonascii '\x0c' = false by decide]

theorem isNewline_of_nonascii : isNewline c = false := by
  have h {d : Char} : isNonascii d = false → (c == d) = false := beq_of_nonascii hc
  simp [isNewline, h, show isNonascii '\n' = false by decide, show isNonascii '\r' = false by decide,
    show isNonascii '\x0c' = false by decide]

theorem isQuote_of_nonascii : isQuote c = false := by
  have h {d : Char} : isNonascii d = false → (c == d) = false := beq_of_nonascii hc
  simp [isQuote, h, show isNonascii '"' = false by decide, show isNonascii '\'' = false by decide]

theorem isDigit_of_nonascii : isDigit c = false := by
  have h := isNonascii_iff.mp hc
  simp only [isDigit, Bool.and_eq_false_iff, decide_eq_false_iff_not, le_char_iff, Char.reduceToNat]
  omega

theorem isHexDigit_of_nonascii : isHexDigit c = false := by
  have h := isNonascii_iff.mp hc
  simp only [isHexDigit, isDigit_of_nonascii hc, Bool.false_or, Bool.or_eq_false_iff, Bool.and_eq_false_iff,
    decide_eq_false_iff_not, le_char_iff, Char.reduceToNat]
  omega

theorem toLower_of_nonascii : c.toLower = c := by
  have h := isNonascii_iff.mp hc
  unfold Char.toLower
  split
  · rename_i hr
    have hz : c.toNat ≤ 90 := UInt32.le_iff_toNat_le.mp hr.2
    omega
  · rfl

theorem isLetterOf_of_nonascii {lower : Char} (hl : isNonascii lower = false) : isLetterOf lower c = false := by
  rw [isLetterOf, toLower_of_nonascii hc]
  exact beq_of_nonascii hc hl

end Nonascii

/-! ## Classes inside and apart from others -/

theorem isNewline_of_isHexDigit {c : Char} : isHexDigit c = true → isNewline c = false := by
  revert c
  apply forall_char_of_ascii
  · decide
  · intro c hc _
    exact isNewline_of_nonascii hc

theorem eq_parenthesis_of_toLower {c : Char} : c.toLower = '(' → c = '(' := by
  revert c
  apply forall_char_of_ascii
  · decide
  · intro c hc h
    rwa [toLower_of_nonascii hc] at h

/-- Beside the classes of letters and names there are only two that a start of a name can belong to: those of
hexadecimal digits and of urls. -/
theorem classes_of_isNameStart {c : Char} : isNameStart c = true →
    isWhitespace c = false ∧ isNewline c = false ∧ isQuote c = false ∧ isDigit c = false ∧ isUrlChar c = true := by
  revert c
  apply forall_char_of_ascii
  · decide
  · intro c hc _
    refine ⟨isWhitespace_of_nonascii hc, isNewline_of_nonascii hc, isQuote_of_nonascii hc, isDigit_of_nonascii hc, ?_⟩
    rw [isUrlChar, hc, Bool.or_true]

theorem isLetterOf_u_iff {c : Char} : isLetterOf 'u' c = true ↔ c = 'u' ∨ c = 'U' := by
  revert c
  apply forall_char_of_ascii
  · decide
  · intro c hc
    simp [isLetterOf_of_nonascii hc (show isNonascii 'u' = false by decide),
      ne_of_nonascii hc (show isNonascii 'u' = false by decide),
      ne_of_nonascii hc (show isNonascii 'U' = false by decide)]

end CssLexer
