/-
  CssLexer.Proofs.Grammar.Spelling — any text can be written as one identifier.

  Each character is written as an escape, by its code point or by itself. The escapes stand one behind another without
  anything between them, and still none runs into the next: behind the digits or the blank of one there is the backslash
  of the next or the end of the text, and a backslash is neither a digit nor a blank.

  Proved:
  - `Spells.exists`: every character can be written so.
  - `Spells.mem_escape`, `Spells.standsFor`: what is written is an escape of the grammar and stands for the character.
  - `Spells.unescape_append`: the decoder reads the character back, with a backslash or nothing behind it.
  - `tokenize_of_ident`: an identifier that starts with a backslash is one token.
  - `identifier_reads_back`: a text that is written so is one identifier, and is read back from it.
-/

import CssLexer.Proofs.Dispatch
import CssLexer.Proofs.Grammar.Denotation
import CssLexer.Proofs.Grammar.Name
import CssLexer.Proofs.LetterCase
import CssLexer.Proofs.Numerals

namespace CssLexer

namespace Grammar

/-- The text of an escape writes a character: by the digits of its code point, in either case, behind zeros that make
them no more than six, and with a blank behind them or not; or by the character itself, if that is no digit of an escape
and ends no line. -/
inductive Spells : Text → Char → Prop
  | number {digits blank : Text} {c : Char} (zeros : Nat) : c ≠ '\x00' →
      SameLetters digits (List.replicate zeros '0' ++ hexadecimal c.toNat) → digits.length ≤ 6 →
      blank ∈ optional (exactly ['\r', '\n'] + one isWhitespace) → Spells ('\\' :: (digits ++ blank)) c
  | itself {c : Char} : isHexDigit c = false → isNewline c = false → Spells ['\\', c] c

/-! ## One character -/

theorem Spells.exists (c : Char) : ∃ e, Spells e c := by
  by_cases hc : c = '\x00'
  · subst hc
    exact ⟨_, .itself (by decide) (by decide)⟩
  · refine ⟨_, .number 0 hc rfl ?_ (mem_optional.mpr (.inl rfl))⟩
    have hvalid : c.toNat < 16 ^ 6 := by
      have := c.valid
      simp only [UInt32.isValidChar, Nat.isValidChar, Char.toNat] at this ⊢
      omega
    exact (Nat.length_toDigits_le_iff (by decide) (by decide)).mpr hvalid

variable {digits e r v : Text} {c : Char} {n zeros : Nat}

/-- The digits of a number, in either case and behind zeros, are digits of an escape with the value of the number. -/
theorem digits_of_sameLetters (h : SameLetters digits (List.replicate zeros '0' ++ hexadecimal n)) :
    0 < digits.length ∧ (∀ d ∈ digits, isHexDigit d = true) ∧ hexValue digits = n := by
  have hpadded : ∀ d ∈ List.replicate zeros '0' ++ hexadecimal n, isHexDigit d = true := by
    intro d hd
    rcases List.mem_append.mp hd with hd | hd
    · rw [List.eq_of_mem_replicate hd]
      decide
    · exact isHexDigit_of_mem_hexadecimal hd
  have hdigits : ∀ d ∈ digits, isHexDigit d = true := by
    intro d hd
    have hlower := List.mem_map_of_mem (f := Char.toLower) hd
    rw [h] at hlower
    obtain ⟨x, hx, heq⟩ := List.mem_map.mp hlower
    rw [isHexDigit_eq_of_toLower heq.symm]
    exact hpadded x hx
  refine ⟨?_, hdigits, ?_⟩
  · rw [h.length_eq, List.length_append]
    exact Nat.lt_of_lt_of_le Nat.length_toDigits_pos (Nat.le_add_left _ _)
  · rw [hexValue_eq h hdigits hpadded, hexValue_zeros]
    simpa using hexValue_map_hexadecimal (f := id) (by decide) n

theorem Spells.mem_escape (h : Spells e c) : e ∈ escape := by
  cases h with
  | number zeros hc hdigits hle hblank =>
    obtain ⟨hpos, hall, -⟩ := digits_of_sameLetters hdigits
    exact mem_escape_iff.mpr (.inl ⟨_, ⟨hpos, hle, hall⟩, _, hblank, rfl⟩)
  | itself hx hn => exact mem_escape_iff.mpr (.inr ⟨c, hn, hx, rfl⟩)

theorem Spells.standsFor (h : Spells e c) : StandsFor e c := by
  cases h with
  | number zeros hc hdigits hle hblank =>
    obtain ⟨hpos, hall, hvalue⟩ := digits_of_sameLetters hdigits
    refine .number ⟨hpos, hle, hall⟩ hblank (.inl ⟨?_, hvalue.symm⟩)
    rw [hvalue]
    intro hzero
    exact hc (Char.toNat_inj.mp hzero)
  | itself hx hn => exact .itself hx

/-- Where nothing or a backslash is behind it, the escape ends for the decoder where it was written to end. -/
theorem Spells.unescape_append (h : Spells e c) (hr : ∀ d ∈ r.head?, d = '\\') :
    unescape (e ++ r) = c :: unescape r := by
  obtain ⟨w, rfl, hreach⟩ := escape_reach h.mem_escape
  obtain ⟨y, q, hyq, hy, hlength⟩ := hreach r
  -- what is taken along behind the escape would be a digit or a blank, and there is none
  have hnil : y = [] := by
    cases r with
    | nil => exact (List.append_eq_nil_iff.mp hyq.symm).1
    | cons d r =>
      obtain rfl : d = '\\' := hr d rfl
      exact hy.eq_nil hyq (by decide) (by decide)
  rw [hnil, List.length_nil, Nat.add_zero] at hlength
  obtain ⟨d, hd, hdecode⟩ := standsFor_decodeEscape hlength
  rw [List.take_left] at hd
  rw [List.drop_left] at hdecode
  rw [List.cons_append, unescape_cons, if_pos rfl, hdecode, h.standsFor.unique hd]
  rfl

/-! ## All characters of a text -/

section

variable {pieces : List Text} {cs : Text}

theorem head?_written (h : List.Forall₂ Spells pieces cs) : ∀ d ∈ pieces.flatten.head?, d = '\\' := by
  intro d hd
  cases h with
  | nil => cases hd
  | cons hc _ =>
    obtain ⟨w, rfl, -⟩ := escape_reach hc.mem_escape
    exact (Option.some_inj.mp hd).symm

theorem unescape_written (h : List.Forall₂ Spells pieces cs) : unescape pieces.flatten = cs := by
  induction h with
  | nil => exact unescape_nil
  | cons hc hcs ih => rw [List.flatten_cons, hc.unescape_append (head?_written hcs), ih]

theorem flatten_mem_star (h : List.Forall₂ Spells pieces cs) : pieces.flatten ∈ KStar.kstar nameChar := by
  induction h with
  | nil => exact Language.nil_mem_kstar _
  | cons hc _ ih => exact append_mem_star (.inr hc.mem_escape) ih

theorem flatten_mem_ident (h : List.Forall₂ Spells pieces cs) (hcs : cs ≠ []) : pieces.flatten ∈ ident := by
  cases h with
  | nil => exact absurd rfl hcs
  | cons hc hrest =>
    exact Language.append_mem_mul (Language.append_mem_mul (mem_optional.mpr (.inl rfl)) (.inr hc.mem_escape))
      (flatten_mem_star hrest)

end

/-! ## The identifier -/

/-- Neither a url nor a range of characters starts with a backslash, and no parenthesis is behind the identifier. -/
theorem tokenize_of_ident (h : '\\' :: r ∈ ident) : tokenize ('\\' :: r) = [⟨.ident, '\\' :: r, 1, 1⟩] := by
  have hlength : identLength? ('\\' :: r) = some ('\\' :: r).length := by
    obtain ⟨z, q, hzq, -, hlength⟩ := ident_reach h []
    obtain ⟨rfl, rfl⟩ := List.append_eq_nil_iff.mp hzq.symm
    rw [List.append_nil, show nameLength [] = 0 from rfl] at hlength
    simpa using hlength
  have hfound : Production.identLike.lexeme? ('\\' :: r) = some ⟨.ident, ('\\' :: r).length⟩ := by
    have hident := identLike?_of_identLength? hlength
    rw [List.drop_length] at hident
    exact hident
  have hurl : Production.uri.opens ('\\' :: r) = false :=
    Production.opens_of_notMem_leading (by decide) (by decide) r
  have hrange : Production.unicodeRange.opens ('\\' :: r) = false :=
    Production.opens_of_notMem_leading (by decide) (by decide) r
  have hwins : Production.Wins .identLike ('\\' :: r) :=
    Production.wins_of_opens (Production.opens_of_lexeme? hfound) (by decide) fun _ => ⟨hurl, hrange⟩
  have hmark : ¬ (Reader.ofText ('\\' :: r)).AtMark := by
    rintro ⟨-, hhead⟩
    exact absurd (Option.some_inj.mp hhead) (by decide)
  refine Reader.tokenize_of_rule (List.cons_ne_nil _ _) ?_
  rw [Reader.rule_of_not_atMark hmark,
    show (Reader.ofText ('\\' :: r)).remaining = '\\' :: r from rfl, Production.select?_of_wins hwins hfound]

theorem exists_written (cs : Text) : ∃ pieces, List.Forall₂ Spells pieces cs := by
  induction cs with
  | nil => exact ⟨[], .nil⟩
  | cons c cs ih =>
    obtain ⟨e, he⟩ := Spells.exists c
    obtain ⟨pieces, hpieces⟩ := ih
    exact ⟨e :: pieces, .cons he hpieces⟩

theorem tokenize_written {pieces : List Text} {cs : Text} (h : List.Forall₂ Spells pieces cs) (hcs : cs ≠ []) :
    tokenize pieces.flatten = [⟨.ident, pieces.flatten, 1, 1⟩] := by
  have hident := flatten_mem_ident h hcs
  cases h with
  | nil => exact absurd rfl hcs
  | cons hc _ =>
    obtain ⟨w, rfl, -⟩ := escape_reach hc.mem_escape
    exact tokenize_of_ident hident

end Grammar

/-- Every character can be written as an escape, by its code point or by itself. However the characters of a text are
written so, one behind another, the result is a single identifier, and the decoder reads the text back from it. -/
theorem identifier_reads_back {cs : Text} (hcs : cs ≠ []) :
    (∃ pieces, List.Forall₂ Grammar.Spells pieces cs) ∧
    ∀ pieces, List.Forall₂ Grammar.Spells pieces cs →
      tokenize pieces.flatten = [⟨.ident, pieces.flatten, 1, 1⟩] ∧ unescape pieces.flatten = cs :=
  ⟨Grammar.exists_written cs, fun _ h => ⟨Grammar.tokenize_written h hcs, Grammar.unescape_written h⟩⟩

/-- The digits take a line end along, or end at the next backslash; a zero, a space and a letter behind the others stand
for themselves. -/
theorem identifier_reads_back_mixed :
    let s : Text := "\\000041\r\n\\a\\é\\\x00\\ \\1F600\t"
    tokenize s = [⟨.ident, s, 1, 1⟩] ∧ unescape s = "A\né\x00 😀" := by
  intro s
  have hwritten : List.Forall₂ Grammar.Spells
      ["\\000041\r\n", "\\a", "\\é", "\\\x00", "\\ ", "\\1F600\t"] ("A\né\x00 😀" : Text) := by
    refine .cons ?_ (.cons ?_ (.cons ?_ (.cons ?_ (.cons ?_ (.cons ?_ .nil)))))
    · exact @Grammar.Spells.number "000041" "\r\n" 'A' 4 (by decide) (by decide) (by decide) (.inr (.inl rfl))
    · exact @Grammar.Spells.number "a" "" '\n' 0 (by decide) (by decide) (by decide) (.inl rfl)
    · exact .itself (by decide) (by decide)
    · exact .itself (by decide) (by decide)
    · exact .itself (by decide) (by decide)
    · exact @Grammar.Spells.number "1F600" "\t" '😀' 0 (by decide) (by decide) (by decide)
        (.inr (.inr ⟨'\t', by decide, rfl⟩))
  exact (identifier_reads_back (by decide)).2 _ hwritten

end CssLexer
