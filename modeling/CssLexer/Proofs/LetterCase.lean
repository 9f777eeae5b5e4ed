/-
  CssLexer.Proofs.LetterCase — the case of ASCII letters.

  A letter and the same letter in the other case belong to the same classes, to the hexadecimal digits as well, have
  the same value there, and are the same letter in a keyword. So texts that have the same letters, each in either case,
  are read alike; and since the decoder of escapes asks nothing else of a character, what their tokens denote has the
  same letters too.

  Proved:
  - `letterCase`: the likeness of characters that are the same letter, or the same.
  - `decodeEscape_alike`, `unescape_alike`: what stands for like characters is like.
  - `tokenize_sameLetters`: so case changes neither where tokens are cut nor what they are, nor the warnings.
-/

import CssLexer.Proofs.Decoding
import CssLexer.Proofs.Likeness.Runs

namespace CssLexer

/-- The same text, but for the case of its ASCII letters. -/
def SameLetters (s t : Text) : Prop := s.map Char.toLower = t.map Char.toLower

instance (s t : Text) : Decidable (SameLetters s t) := inferInstanceAs (Decidable (_ = _))

/-! ## Lower case -/

/-- What a letter has in common with its lower case; any other character is its own. -/
theorem toLower_classes : ∀ c : Char, isNameStart c.toLower = isNameStart c ∧ isHexDigit c.toLower = isHexDigit c ∧
    (isHexDigit c = true → hexDigitValue c.toLower = hexDigitValue c) ∧ c.toLower.utf8Size = c.utf8Size ∧
    (isNameStart c = false → c.toLower = c) := by
  apply forall_char_of_ascii
  · decide
  · intro c hc
    rw [toLower_of_nonascii hc]
    simp

theorem toLower_eq_mark_iff : ∀ c : Char, c.toLower = '\uFEFF' ↔ c = '\uFEFF' := by
  apply forall_char_of_ascii
  · decide
  · intro c hc
    rw [toLower_of_nonascii hc]

theorem isHexDigit_eq_of_toLower {c d : Char} (h : c.toLower = d.toLower) : isHexDigit c = isHexDigit d := by
  rw [← (toLower_classes c).2.1, h, (toLower_classes d).2.1]

theorem eq_or_isNameStart_of_toLower {c d : Char} (h : c.toLower = d.toLower) :
    c = d ∨ isNameStart c = true ∧ isNameStart d = true := by
  have hstart : isNameStart c = isNameStart d := by rw [← (toLower_classes c).1, h, (toLower_classes d).1]
  cases hc : isNameStart c with
  | true => exact Or.inr ⟨rfl, hstart ▸ hc⟩
  | false =>
    have hd : isNameStart d = false := hstart ▸ hc
    left
    rw [← (toLower_classes c).2.2.2.2 hc, h, (toLower_classes d).2.2.2.2 hd]

/-- Characters are alike that have one lower case. -/
def Likeness.letterCase : Likeness where
  like c d := c.toLower = d.toLower
  joins := False
  eq_or_isNameStart := eq_or_isNameStart_of_toLower
  isHexDigit_eq := isHexDigit_eq_of_toLower
  isLetterOf_eq h _ _ := by rw [isLetterOf, isLetterOf, h]
  not_return _ h := h.elim

open Likeness

theorem alike_iff_sameLetters {s t : Text} : letterCase.Alike s t ↔ SameLetters s t := by
  constructor
  · intro h
    induction h with
    | nil => rfl
    | char hc _ ih => exact congrArg₂ List.cons hc ih
    | line hj => exact hj.elim
  · intro h
    induction s generalizing t with
    | nil =>
      cases t with
      | nil => exact .nil
      | cons => cases h
    | cons c s ih =>
      cases t with
      | nil => cases h
      | cons d t =>
        obtain ⟨hc, hs⟩ := List.cons_eq_cons.mp h
        exact .char hc (ih hs)

theorem SameLetters.length_eq {s t : Text} (h : SameLetters s t) : s.length = t.length := by
  have hlength := congrArg List.length h
  rwa [List.length_map, List.length_map] at hlength

theorem byteLength_map_toLower (s : Text) : Text.byteLength (s.map Char.toLower) = s.byteLength := by
  induction s with
  | nil => rfl
  | cons c s ih => rw [List.map_cons, Text.byteLength_cons, Text.byteLength_cons, ih, (toLower_classes c).2.2.2.1]

theorem SameLetters.byteLength_eq {s t : Text} (h : SameLetters s t) : s.byteLength = t.byteLength := by
  rw [← byteLength_map_toLower s, h, byteLength_map_toLower]

theorem SameLetters.head?_eq_mark_iff {s t : Text} (h : SameLetters s t) :
    s.head? = some '\uFEFF' ↔ t.head? = some '\uFEFF' := by
  have hlower (s : Text) : s.head? = some '\uFEFF' ↔ (s.map Char.toLower).head? = some '\uFEFF' := by
    cases s with
    | nil => rfl
    | cons c s => simp [toLower_eq_mark_iff]
  rw [hlower s, h, ← hlower t]

/-! ## Escapes -/

theorem hexValue_map_toLower {s : Text} (h : ∀ c ∈ s, isHexDigit c = true) :
    hexValue (s.map Char.toLower) = hexValue s := by
  have hfold (n : Nat) : (s.map Char.toLower).foldl (fun n c => 16 * n + hexDigitValue c) n =
      s.foldl (fun n c => 16 * n + hexDigitValue c) n := by
    induction s generalizing n with
    | nil => rfl
    | cons c s ih =>
      rw [List.map_cons, List.foldl_cons, List.foldl_cons, ih fun d hd => h d (List.mem_cons_of_mem c hd),
        (toLower_classes c).2.2.1 (h c List.mem_cons_self)]
  exact hfold 0

theorem hexValue_eq {s t : Text} (h : SameLetters s t) (hs : ∀ c ∈ s, isHexDigit c = true)
    (ht : ∀ c ∈ t, isHexDigit c = true) : hexValue s = hexValue t := by
  rw [← hexValue_map_toLower hs, h, hexValue_map_toLower ht]

theorem decodeEscape_alike {s t : Text} (h : letterCase.Alike s t) :
    letterCase.Alike (decodeEscape s).1.toList (decodeEscape t).1.toList ∧
      letterCase.Alike (decodeEscape s).2 (decodeEscape t).2 := by
  refine ⟨?_, ?_⟩
  · cases h with
    | nil => exact .nil
    | line hj => exact hj.elim
    | @char c d r r' hc hr =>
      have hx := class_isHexDigit.eq hc
      have hn := class_isNewline.eq hc
      by_cases hc' : isHexDigit c = true
      · -- as many digits in both texts, each of the same value
        have hdigits (s : Text) : ∀ x ∈ s.take (countUpTo 6 isHexDigit s), isHexDigit x = true :=
          fun _ hm => of_mem_take_countUpTo hm
        obtain ⟨heq, hcut⟩ := countUpTo_alike class_isHexDigit (by decide) 6 (.char hc hr)
        have hvalue : hexValue ((c :: r).take (countUpTo 6 isHexDigit (c :: r))) =
            hexValue ((d :: r').take (countUpTo 6 isHexDigit (d :: r'))) := by
          refine hexValue_eq ?_ (hdigits _) (hdigits _)
          rw [heq]
          exact alike_iff_sameLetters.mp hcut.front
        rw [decodeEscape_of_hexDigit hc', decodeEscape_of_hexDigit (hx ▸ hc'), hvalue]
        exact .char rfl .nil
      · by_cases hn' : isNewline c = true
        · rw [decodeEscape_of_newline hn', decodeEscape_of_newline (hn ▸ hn')]
          exact .nil
        · rw [decodeEscape_of_plain hc' hn', decodeEscape_of_plain (hx ▸ hc') (hn ▸ hn')]
          exact .char hc .nil
  · rw [decodeEscape_snd, decodeEscape_snd]
    exact (escapeReach_alike h).rest

theorem unescape_alike {s t : Text} (h : letterCase.Alike s t) : letterCase.Alike (unescape s) (unescape t) := by
  induction hn : s.length using Nat.strongRecOn generalizing s t with
  | _ n ih =>
    cases h with
    | nil =>
      rw [unescape_nil]
      exact .nil
    | line hj => exact hj.elim
    | @char c d r r' hc hr =>
      rw [List.length_cons] at hn
      have hbackslash : c = '\\' ↔ d = '\\' := eq_iff_eq hc (by decide)
      rw [unescape_cons, unescape_cons]
      by_cases hb : c = '\\'
      · have hle := decodeEscape_length_le r
        obtain ⟨hfirst, hrest⟩ := decodeEscape_alike hr
        rw [if_pos hb, if_pos (hbackslash.mp hb)]
        exact hfirst.append (ih _ (by omega) hrest rfl)
      · rw [if_neg hb, if_neg (mt hbackslash.mpr hb)]
        exact .char hc (ih r.length (by omega) hr rfl)

/-! ## Texts -/

/-- The case of ASCII letters does not matter. Texts with the same letters, each in either case, have the same number of
tokens; these have the same kinds, lines, columns and byte lengths, values with the same letters, and denote texts with
the same letters. The tokens of the second text are its own slices, of as many characters as those of the first, and
reading either text to the end prints the same warnings. -/
theorem tokenize_sameLetters {s s' : Text} (h : SameLetters s s') :
    List.Forall₂ (fun t t' => t'.kind = t.kind ∧ t'.line = t.line ∧ t'.column = t.column ∧
        t'.value.byteLength = t.value.byteLength ∧ SameLetters t.value t'.value ∧
        SameLetters (unescape t.value) (unescape t'.value))
      (tokenize s) (tokenize s') ∧
    (∀ k, spelled ((tokenize s').take k) = s'.take (spelled ((tokenize s).take k)).length) ∧
    (Scan.ofText s').rest.printed = (Scan.ofText s).rest.printed := by
  have halike := alike_iff_sameLetters.mpr h
  have htokens := tokenize_alike halike h.head?_eq_mark_iff
  refine ⟨?_, ?_, (printed_alike halike h.head?_eq_mark_iff).symm⟩
  · refine htokens.imp ?_
    intro t t' ht
    have hvalue := alike_iff_sameLetters.mp ht.value
    exact ⟨ht.kind.symm, ht.line.symm, ht.column.symm, hvalue.byteLength_eq.symm, hvalue,
      alike_iff_sameLetters.mp (unescape_alike ht.value)⟩
  · intro k
    have hfront := alike_iff_sameLetters.mp (alike_spelled (List.forall₂_take k htokens))
    have hsplit : spelled ((tokenize s').take k) ++ spelled ((tokenize s').drop k) = s' := by
      rw [← spelled_append, List.take_append_drop, spelled_tokenize]
    rw [hfront.length_eq]
    exact List.prefix_iff_eq_take.mp ⟨_, hsplit⟩

/-- An escape, a url and a range in either case, and a string that is cut off. -/
theorem tokenize_sameLetters_mixed :
    SameLetters "\\4a x U+aF ->\nuRl( a ) 'b\n" "\\4A X u+Af ->\nURL( A ) 'B\n" ∧
    List.Forall₂ (fun t t' => t'.kind = t.kind ∧ t'.line = t.line ∧ t'.column = t.column ∧
        t'.value.byteLength = t.value.byteLength ∧ SameLetters t.value t'.value ∧
        SameLetters (unescape t.value) (unescape t'.value))
      (tokenize "\\4a x U+aF ->\nuRl( a ) 'b\n") (tokenize "\\4A X u+Af ->\nURL( A ) 'B\n") ∧
    (tokenize "\\4A X u+Af ->\nURL( A ) 'B\n").map Token.kind =
      [.ident, .space, .unicodeRange, .space, .delim, .delim, .space, .uri, .space, .badString, .space] ∧
    (Scan.ofText "\\4A X u+Af ->\nURL( A ) 'B\n").rest.printed = ["[lemur CSS] ⚠ unterminated string"] := by
  have hletters : SameLetters "\\4a x U+aF ->\nuRl( a ) 'b\n" "\\4A X u+Af ->\nURL( A ) 'B\n" := by decide
  have h := tokenize_sameLetters hletters
  refine ⟨hletters, h.1, by decide +kernel, ?_⟩
  rw [h.2.2]
  decide +kernel

end CssLexer
