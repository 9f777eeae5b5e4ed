/-
  CssLexer.Proofs.Nonascii — characters outside ASCII stand for each other, and `_` stands for any of them.

  Every character from U+0080 up starts names and belongs to no other class that the lexer asks about but that of urls;
  so does `_`. The controls among them are no exception: only a single character is tested for being a control, and an
  identifier comes first. What such characters take in bytes differs, but only offsets count bytes, and of these only
  whether they are zero, which tells a byte order mark at the start of the text from any other.

  Proved:
  - `Step.ascii_of_kind`: no blank, no single character and no unexpected character is outside ASCII.
  - `tokenize_interchanged`: replacing such characters changes neither kinds nor places nor lengths nor warnings.
-/

import CssLexer.Proofs.Likeness.Runs
import CssLexer.Proofs.Restart

namespace CssLexer

/-- The same text, but for characters outside ASCII in the first that others outside ASCII or `_` stand for in the
second. -/
def Interchanged (s t : Text) : Prop :=
  List.Forall₂ (fun c d => d = c ∨ isNonascii c = true ∧ (isNonascii d = true ∨ d = '_')) s t

instance (s t : Text) : Decidable (Interchanged s t) := inferInstanceAs (Decidable (List.Forall₂ _ s t))

/-! ## Characters -/

/-- What `_` has in common with every character outside ASCII. -/
theorem classes_of_substitute {c : Char} (h : isNonascii c = true ∨ c = '_') :
    isNameStart c = true ∧ isHexDigit c = false ∧ ∀ lower ∈ ['u', 'r', 'l'], isLetterOf lower c = false := by
  rcases h with hc | rfl
  · refine ⟨by rw [isNameStart, hc, Bool.or_true], isHexDigit_of_nonascii hc, ?_⟩
    intro lower hlower
    simp only [List.mem_cons, List.not_mem_nil, or_false] at hlower
    rcases hlower with rfl | rfl | rfl <;> exact isLetterOf_of_nonascii hc (by decide)
  · refine ⟨rfl, rfl, ?_⟩
    intro lower hlower
    simp only [List.mem_cons, List.not_mem_nil, or_false] at hlower
    rcases hlower with rfl | rfl | rfl <;> rfl

/-- A character is like itself, and one outside ASCII like any other and like `_`. -/
def Likeness.nonascii : Likeness where
  like c d := d = c ∨ isNonascii c = true ∧ (isNonascii d = true ∨ d = '_')
  joins := False
  eq_or_isNameStart h := by
    rcases h with rfl | ⟨hc, hd⟩
    · exact Or.inl rfl
    · exact Or.inr ⟨(classes_of_substitute (Or.inl hc)).1, (classes_of_substitute hd).1⟩
  isHexDigit_eq h := by
    rcases h with rfl | ⟨hc, hd⟩
    · rfl
    · rw [(classes_of_substitute (Or.inl hc)).2.1, (classes_of_substitute hd).2.1]
  isLetterOf_eq h lower hlower := by
    rcases h with rfl | ⟨hc, hd⟩
    · rfl
    · rw [(classes_of_substitute (Or.inl hc)).2.2 lower hlower, (classes_of_substitute hd).2.2 lower hlower]
  not_return _ h := h.elim

open Likeness

theorem alike_iff_interchanged {s t : Text} : nonascii.Alike s t ↔ Interchanged s t := by
  constructor
  · intro h
    induction h with
    | nil => exact .nil
    | char hc _ ih => exact .cons hc ih
    | line hj => exact hj.elim
  · intro h
    induction h with
    | nil => exact .nil
    | cons hc _ ih => exact .char hc ih

/-! ## Tokens without characters outside ASCII -/

theorem Lexeme.isWhitespace_of_space? {s : Text} {l : Lexeme} (h : Lexeme.space? s = some l) :
    ∀ c ∈ s.take l.length, isWhitespace c = true := by
  rw [Lexeme.space?_eq] at h
  split at h
  · cases h
  · cases h
    intro c hc
    exact of_mem_take_countWhile hc

namespace Reader

variable {r next : Reader} {e : Entry}

theorem Step.kind_of_nonascii (h : Step r e next) {c : Char} {s : Text} (hvalue : e.token.value = c :: s)
    (hc : isNonascii c = true) : e.token.kind ∈ [Kind.byteOrderMark, .ident, .function] := by
  rw [h.kind]
  by_cases hmark : r.AtMark
  · rw [rule_of_atMark hmark]
    simp
  · obtain ⟨l, hl, hkind⟩ := Production.select?_of_nonascii hc (s ++ next.remaining)
    have hremaining : r.remaining = c :: (s ++ next.remaining) := by rw [h.remaining, hvalue, List.cons_append]
    rw [rule_of_not_atMark hmark, hremaining, hl]
    rcases hkind with hkind | hkind <;> simp [hkind]

theorem Step.ascii_of_kind (h : Step r e next) (hk : e.token.kind ∈ [Kind.space, .delim, .unexpected]) :
    ∀ c ∈ e.token.value, isNonascii c = false := by
  have hsingle (c : Char) (hvalue : e.token.value = [c]) : ∀ d ∈ e.token.value, isNonascii d = false := by
    intro d hd
    rw [hvalue, List.mem_singleton] at hd
    subst hd
    by_contra hc
    have hstart := h.kind_of_nonascii hvalue (by simpa using hc)
    revert hk hstart
    cases e.token.kind <;> decide
  simp only [List.mem_cons, List.not_mem_nil, or_false] at hk
  rcases hk with hk | hk | hk
  · obtain ⟨l, hl, -, hvalue, -⟩ := h.lexeme? .whitespace (by rw [hk]; decide)
    intro c hc
    rw [hvalue] at hc
    have hblank := Lexeme.isWhitespace_of_space? hl c hc
    by_contra hna
    rw [isWhitespace_of_nonascii (by simpa using hna)] at hblank
    cases hblank
  · obtain ⟨l, hl, -, hvalue, -⟩ := h.lexeme? .delim (by rw [hk]; decide)
    rw [Lexeme.delim?_eq_some hl] at hvalue
    obtain ⟨c, s, hcons⟩ := List.exists_cons_of_ne_nil h.remaining_ne_nil
    exact hsingle c (by rw [hvalue, hcons]; rfl)
  · obtain ⟨c, hc⟩ := h.value_of_unexpected hk
    exact hsingle c hc

end Reader

/-! ## Texts -/

/-- Characters outside ASCII are interchangeable. Put others outside ASCII or `_` for any of them; if neither text
starts with a byte order mark, both have the same number of tokens, of the same kinds, at the same lines and columns,
with as many characters, which correspond in the same way, and reading either text to the end prints the same warnings.
None of these characters stands in a token of blanks, is a single character, or is refused. -/
theorem tokenize_interchanged {s s' : Text} (h : Interchanged s s') (hs : s.head? ≠ some '\uFEFF')
    (hs' : s'.head? ≠ some '\uFEFF') :
    List.Forall₂ (fun t t' => t'.kind = t.kind ∧ t'.line = t.line ∧ t'.column = t.column ∧
        t'.value.length = t.value.length ∧ Interchanged t.value t'.value)
      (tokenize s) (tokenize s') ∧
    (Scan.ofText s').rest.printed = (Scan.ofText s).rest.printed ∧
    ∀ t ∈ tokenize s, t.kind ∈ [Kind.space, .delim, .unexpected] → ∀ c ∈ t.value, isNonascii c = false := by
  have halike := alike_iff_interchanged.mpr h
  have hmark := iff_of_false hs hs'
  refine ⟨?_, (printed_alike halike hmark).symm, ?_⟩
  · refine (tokenize_alike halike hmark).imp ?_
    intro t t' ht
    have hvalue := alike_iff_interchanged.mp ht.value
    exact ⟨ht.kind.symm, ht.line.symm, ht.column.symm, hvalue.length_eq.symm, hvalue⟩
  · intro t ht
    obtain ⟨r, e, next, hstep, rfl⟩ := exists_step_of_mem ht
    exact hstep.ascii_of_kind

/-- A control, blanks and line separators outside ASCII, and a byte order mark behind the start of the text, against
`_` for each: in an identifier, in a string that is cut off, in a url, and in a function beside a control that is
refused. -/
theorem tokenize_interchanged_mixed :
    Interchanged "a\u0085\u00a0b '\u2028\nurl( \u3000 )\uFEFF(\x01" "a__b '_\nurl( _ )_(\x01" ∧
    List.Forall₂ (fun t t' => t'.kind = t.kind ∧ t'.line = t.line ∧ t'.column = t.column ∧
        t'.value.length = t.value.length ∧ Interchanged t.value t'.value)
      (tokenize "a\u0085\u00a0b '\u2028\nurl( \u3000 )\uFEFF(\x01") (tokenize "a__b '_\nurl( _ )_(\x01") ∧
    (tokenize "a\u0085\u00a0b '\u2028\nurl( \u3000 )\uFEFF(\x01").map Token.kind =
      [.ident, .space, .badString, .space, .uri, .function, .unexpected] ∧
    (Scan.ofText "a__b '_\nurl( _ )_(\x01").rest.printed =
      ["[lemur CSS] ⚠ unterminated string", "[lemur CSS] ⚠ unexpected character U+0001"] := by
  have hsame : Interchanged "a\u0085\u00a0b '\u2028\nurl( \u3000 )\uFEFF(\x01" "a__b '_\nurl( _ )_(\x01" := by
    decide
  have h := tokenize_interchanged hsame (by decide) (by decide)
  refine ⟨hsame, h.1, by decide +kernel, ?_⟩
  rw [h.2.1]
  decide +kernel

end CssLexer
