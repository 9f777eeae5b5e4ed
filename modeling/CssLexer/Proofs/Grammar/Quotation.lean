/-
  CssLexer.Proofs.Grammar.Quotation — quoted strings are those of the grammar, closed or left open.

  The grammar reads a quotation mark, a line end and a backslash by what is before them: a mark or a line end behind a
  backslash belongs to the string, and a line end behind the digits of an escape belongs to the escape. The lexer goes
  over the string once and comes to stand where every reading of the grammar that gets to an end has to stand.

  Proved:
  - `greedy_quotedItem`: the items of a string are read as the grammar has them, a backslash at the end of the text
    apart.
  - `quotation?_of_mem`, `take_mem_of_closed`: what is found closed is a string, and every string is found, whatever is
    behind it.
  - `openString_reach`, `take_mem_of_open`: what is found open is as long as it can be.
  - `strings_exact`: so a text has the lexeme of a string, or of one left open, exactly where the grammar says so.
-/

import CssLexer.Proofs.Adjacency
import CssLexer.Proofs.Decoding
import CssLexer.Proofs.Grammar.Longest

namespace CssLexer

namespace Grammar

/-- What a string in the quotation marks `quote` is made of. -/
def stringItem (quote : Char) : Language Char :=
  one (fun c => !isNewline c && c != '\\' && c != quote) + exactly ['\\'] * newline + escape

/-- A string that nothing closes, as far as its items go. -/
def unclosed (quote : Char) : Language Char := exactly [quote] * stringBody quote

/-- The same with a backslash that has nothing behind it. -/
def openString (quote : Char) : Language Char := unclosed quote * optional (exactly ['\\'])

/-- The first `n` characters of `s` are a string that nothing closes, up to the end of the line or of the text. -/
structure LeftOpen (quote : Char) (s : Text) (n : Nat) : Prop
    extends Unfinished (string quote) (openString quote) s n where
  ended : ∀ c ∈ (s.drop n).head?, c = '\n' ∨ c = '\r' ∨ c = '\x0c'
  /-- A backslash that starts nothing is the last character of the text. -/
  lone : s.take n ∉ Grammar.unclosed quote → s.drop n = []

/-! ## Items -/

theorem quotedItem_backslash {quote : Char} (hq : isQuote quote = true) (r : Text) :
    quotedItem quote '\\' r = some (escapeReach r) := by
  rw [quotedItem_eq, if_neg (by simpa using Ne.symm (ne_backslash_of_isQuote hq))]
  rfl

theorem greedy_quotedItem {quote : Char} (hq : isQuote quote = true) :
    Greedy (quotedItem quote) (stringItem quote) (exactly ['\\']) := by
  refine ⟨?reach, ?single, quotedItem_le, ?found⟩
  case reach =>
    rintro v ((⟨c, hc, rfl⟩ | ⟨_, rfl, b, hb, rfl⟩) | hv)
    · simp only [Bool.and_eq_true, Bool.not_eq_true', bne_iff_ne] at hc
      refine ⟨c, [], rfl, fun t => ⟨[], t, rfl, trails_nil, ?_⟩⟩
      rw [quotedItem_eq, if_neg (by simpa using hc.2), if_neg (by simpa using hc.1.2), if_neg (by simp [hc.1.1])]
      rfl
    · refine ⟨'\\', b, rfl, fun t => ?_⟩
      obtain ⟨y, r, ht, hy, hbreak⟩ := break_reach hb t
      refine ⟨y, r, ht, hy, ?_⟩
      have hreach : escapeReach (b ++ t) = newlineLength (b ++ t) := by
        rcases hb with rfl | ⟨c, hc, rfl⟩
        · exact escapeReach_of_newline (by decide) _
        · exact escapeReach_of_newline hc _
      rw [quotedItem_backslash hq, hreach, newlineLength_eq, hbreak]
    · obtain ⟨w, rfl, hreach⟩ := escape_reach hv
      refine ⟨'\\', w, rfl, fun t => ?_⟩
      obtain ⟨y, r, ht, hy, htail⟩ := hreach t
      exact ⟨y, r, ht, hy, by rw [quotedItem_backslash hq, escapeReach_of_some htail]⟩
  case single =>
    rintro c w ((⟨d, -, heq⟩ | ⟨_, rfl, b, -, heq⟩) | hv) hc
    · cases heq
      rfl
    · cases heq
      exact absurd rfl hc
    · obtain ⟨v, heq, -⟩ := escape_reach hv
      cases heq
      exact absurd rfl hc
  case found =>
    intro c r k h
    by_cases hb : c = '\\'
    · subst hb
      rw [quotedItem_backslash hq, Option.some_inj] at h
      subst h
      cases r with
      | nil => exact .inr ⟨rfl, mem_exactly.mpr rfl⟩
      | cons d r =>
        left
        cases htail : escapeTail? (d :: r) with
        | some n =>
          rw [escapeReach_of_some htail]
          exact .inr (take_escape_mem htail)
        | none =>
          have hpos := escapeReach_pos d r
          rw [escapeReach_of_none htail] at hpos ⊢
          exact .inl (.inr (Language.append_mem_mul (mem_exactly.mpr rfl) (take_newlineLength_mem hpos)))
    · rw [quotedItem_eq] at h
      split at h
      · cases h
      · rename_i hquote
        rw [if_neg (by simpa using hb)] at h
        split at h
        · cases h
        · rename_i hn
          cases h
          refine .inl (.inl (.inl (singleton_mem_one.mpr ?_)))
          simp only [Bool.and_eq_true, Bool.not_eq_true', bne_iff_ne]
          exact ⟨⟨by simpa using hn, hb⟩, by simpa using hquote⟩

/-! ## Strings -/

theorem isHexDigit_of_isQuote {c : Char} (h : isQuote c = true) : isHexDigit c = false := by
  rcases (isQuote_iff c).mp h with rfl | rfl <;> decide

theorem isWhitespace_of_isQuote {c : Char} (h : isQuote c = true) : isWhitespace c = false := by
  rcases (isQuote_iff c).mp h with rfl | rfl <;> decide

variable {quote : Char} {r s t v : Text} {n : Nat} {closed : Bool}

theorem quotation?_of_mem (hq : isQuote quote = true) (hv : v ∈ string quote) (t : Text) :
    quotation? (v ++ t) = some (v.length, true) := by
  obtain ⟨_, ⟨_, rfl, u, hu, rfl⟩, _, rfl, rfl⟩ := hv
  have hstop : runLength (quotedItem quote) (quote :: t) = 0 :=
    runLength_cons_of_none (by rw [quotedItem_eq, if_pos (by simp)])
  have hbody : runLength (quotedItem quote) (u ++ quote :: t) = u.length := by
    rw [(greedy_quotedItem hq).run_cons hu t (isHexDigit_of_isQuote hq) (isWhitespace_of_isQuote hq), hstop,
      Nat.add_zero]
  simp only [List.append_assoc, List.cons_append, List.nil_append]
  rw [quotation?_cons hq, hbody, List.drop_left, List.head?_cons, if_pos rfl]
  simp only [List.length_cons, List.length_append, List.length_nil]
  congr 2
  omega

/-- What is found goes over the mark and the items behind it, and over the closing mark if it is there. -/
theorem quotation?_cases (hq : isQuote quote = true) (h : quotation? (quote :: r) = some (n, closed)) :
    (closed = true ∧ n = runLength (quotedItem quote) r + 1 + 1 ∧
        ∃ t, r.drop (runLength (quotedItem quote) r) = quote :: t) ∨
      (closed = false ∧ n = runLength (quotedItem quote) r + 1) := by
  rw [quotation?_cons hq] at h
  split at h
  · rename_i hclosed
    cases h
    exact .inl ⟨rfl, by omega, List.head?_eq_some_iff.mp hclosed⟩
  · cases h
    exact .inr ⟨rfl, Nat.add_comm _ _⟩

theorem take_mem_of_closed (hq : isQuote quote = true) (h : quotation? (quote :: r) = some (n, true)) :
    (quote :: r).take n ∈ string quote := by
  obtain ⟨-, rfl, t, ht⟩ | ⟨hopen, -⟩ := quotation?_cases hq h
  · have hbody := (greedy_quotedItem hq).take_run_mem (s := r) (.inl (by rw [ht]; exact List.cons_ne_nil _ _))
    rw [List.take_succ_cons, List.take_add, ht, ← List.cons_append]
    exact Language.append_mem_mul (Language.append_mem_mul (mem_exactly.mpr rfl) hbody) (mem_exactly.mpr rfl)
  · cases hopen

theorem take_mem_of_open (hq : isQuote quote = true) (h : quotation? (quote :: r) = some (n, false)) :
    (quote :: r).take n ∈ unclosed quote ∨
      ((quote :: r).take n ∈ unclosed quote * exactly ['\\'] ∧ (quote :: r).drop n = []) := by
  obtain ⟨hclosed, -⟩ | ⟨-, rfl⟩ := quotation?_cases hq h
  · cases hclosed
  · rw [List.take_succ_cons, List.drop_succ_cons]
    rcases (greedy_quotedItem hq).take_run r with hbody | ⟨hbody, hend⟩
    · exact .inl (Language.append_mem_mul (mem_exactly.mpr rfl) hbody)
    · rw [unclosed, mul_assoc]
      exact .inr ⟨Language.append_mem_mul (mem_exactly.mpr rfl) hbody, hend⟩

/-- Wherever the items of a string may get to, with a backslash behind them or not, what is found gets as far. -/
theorem openString_reach (hq : isQuote quote = true) (hv : v ∈ openString quote) (t : Text) :
    ∃ n closed, quotation? (v ++ t) = some (n, closed) ∧ v.length ≤ n := by
  obtain ⟨_, ⟨_, rfl, w, hw, rfl⟩, b, hb, rfl⟩ := hv
  have hbody : w.length + b.length ≤ runLength (quotedItem quote) (w ++ (b ++ t)) := by
    rcases hb with rfl | rfl
    · exact (greedy_quotedItem hq).le_run hw t
    · rw [List.singleton_append, (greedy_quotedItem hq).run_cons hw t (by decide) (by decide),
        runLength_cons_of_some (quotedItem_backslash hq t), List.length_singleton]
      omega
  simp only [List.append_assoc, List.cons_append, List.nil_append, List.length_cons, List.length_append]
  rw [quotation?_cons hq]
  split <;> exact ⟨_, _, rfl, by omega⟩

theorem classifies_string? (hq : isQuote quote = true) :
    Classifies (Lexeme.string? (quote :: r)) (quote :: r) .string .badString (string quote) (openString quote) where
  ne := by decide
  sound h := by
    refine ⟨Production.lexeme?_length_le (p := .string) h, ?_⟩
    obtain ⟨⟨n, closed⟩, hfound, rfl⟩ := Option.map_eq_some_iff.mp h
    cases closed with
    | true => exact .inl ⟨rfl, take_mem_of_closed hq hfound⟩
    | false =>
      refine .inr ⟨rfl, ?_⟩
      rw [openString, optional, mul_add, mul_one]
      exact (take_mem_of_open hq hfound).imp_right And.left
  whole n hle hs := by
    have hfound := quotation?_of_mem hq hs ((quote :: r).drop n)
    rw [List.take_append_drop, List.length_take_of_le hle] at hfound
    rw [Lexeme.string?, hfound]
    rfl
  part n hle hs := by
    obtain ⟨k, closed, hfound, hk⟩ := openString_reach hq hs ((quote :: r).drop n)
    rw [List.take_append_drop] at hfound
    rw [List.length_take_of_le hle] at hk
    exact ⟨_, by rw [Lexeme.string?, hfound]; rfl, hk⟩

theorem leftOpen_of_badString (hq : isQuote quote = true) (h : Lexeme.string? (quote :: r) = some ⟨.badString, n⟩) :
    LeftOpen quote (quote :: r) n := by
  have hfound : quotation? (quote :: r) = some (n, false) := by
    obtain ⟨⟨m, closed⟩, hfound, heq⟩ := Option.map_eq_some_iff.mp h
    cases closed <;> cases heq
    exact hfound
  refine ⟨(classifies_string? hq).unfinished h, fun c hc => ?_, fun hbody => ?_⟩
  · obtain ⟨t, ht⟩ := List.head?_eq_some_iff.mp hc
    have hline := quotation?_stops hfound ht
    simpa [isNewline, or_assoc] using hline
  · exact ((take_mem_of_open hq hfound).resolve_left hbody).2

end Grammar

/-- A text that starts with a quotation mark has the lexeme of a string, which is its one beginning in the grammar, or
where it has none, that of a string left open, which is as long as it can be and ends with the line or the text; a text
that starts otherwise has neither. -/
theorem strings_exact (s : Text) :
    (Lexeme.string? s = none ↔ ∀ quote ∈ s.head?, isQuote quote = false) ∧
    ∀ quote ∈ s.head?, isQuote quote = true →
      (∀ n, Lexeme.string? s = some ⟨.string, n⟩ ↔ Grammar.IsOnly (Grammar.string quote) s n) ∧
      (∀ n, Lexeme.string? s = some ⟨.badString, n⟩ ↔ Grammar.LeftOpen quote s n) ∧
      ((∃ n, Grammar.IsOnly (Grammar.string quote) s n) ∨ ∃ n, Grammar.LeftOpen quote s n) := by
  have hopens := Production.isSome_lexeme? .string s
  refine ⟨?_, fun quote hhead hq => ?_⟩
  · rw [← Option.not_isSome_iff_eq_none, show (Lexeme.string? s).isSome = s.head?.any isQuote from hopens]
    cases s.head? <;> simp
  · obtain ⟨r, rfl⟩ := List.head?_eq_some_iff.mp hhead
    have hclassifies := Grammar.classifies_string? (r := r) hq
    have hopen (n : Nat) : Lexeme.string? (quote :: r) = some ⟨.badString, n⟩ ↔ Grammar.LeftOpen quote (quote :: r) n :=
      ⟨Grammar.leftOpen_of_badString hq, fun h => hclassifies.part_iff.mpr h.toUnfinished⟩
    refine ⟨fun n => hclassifies.whole_iff, hopen, ?_⟩
    refine (hclassifies.isOnly_or_unfinished (hopens.trans hq)).imp_right ?_
    rintro ⟨n, h⟩
    exact ⟨n, (hopen n).mp (hclassifies.part_iff.mpr h)⟩

end CssLexer
