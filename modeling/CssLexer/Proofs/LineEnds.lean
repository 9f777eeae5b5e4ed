/-
  CssLexer.Proofs.LineEnds — a carriage return with its line feed against the line feed alone.

  Hexadecimal escapes, continued lines in strings, blanks and the count of lines each treat a carriage return with its
  line feed in their own way, but each treats the two as one. So a text in which every carriage return has its line
  feed is like the text with the line feeds alone, and is read alike. A carriage return on its own has no counterpart
  there.

  Proved:
  - `alike_joinLines`: the two texts are alike; `eq_joinLines`: and to be alike in this way is to be so related.
  - `tokenize_joinLines`: so the tokens are the same but for their line ends, and none ends inside one.
-/

import CssLexer.Proofs.Likeness.Runs

namespace CssLexer

/-- Every carriage return has its line feed. -/
def PairedReturns (s : Text) : Prop := ∀ i < s.length, s[i]? = some '\r' → s[i + 1]? = some '\n'

instance (s : Text) : Decidable (PairedReturns s) := inferInstanceAs (Decidable (∀ i < s.length, _))

/-- The text with a line feed for each carriage return with its line feed. -/
def joinLines : Text → Text
  | '\r' :: '\n' :: r => '\n' :: joinLines r
  | c :: r => c :: joinLines r
  | [] => []

theorem joinLines_cons {c : Char} (hc : c ≠ '\r') (r : Text) : joinLines (c :: r) = c :: joinLines r := by
  rw [joinLines]
  intro _ h
  exact absurd h hc

theorem PairedReturns.tail {c : Char} {r : Text} (h : PairedReturns (c :: r)) : PairedReturns r := by
  intro i hi hreturn
  exact h (i + 1) (by rw [List.length_cons]; omega) hreturn

/-- All characters are like themselves, but a carriage return only together with its line feed. -/
def Likeness.lineEnds : Likeness where
  like c d := c = d ∧ c ≠ '\r'
  joins := True
  eq_or_isNameStart h := Or.inl h.1
  isHexDigit_eq h := by rw [h.1]
  isLetterOf_eq h _ _ := by rw [h.1]
  not_return _ _ h := h.2 rfl

open Likeness

theorem alike_joinLines {s : Text} (h : PairedReturns s) : lineEnds.Alike s (joinLines s) := by
  fun_induction joinLines s with
  | case1 r ih => exact .line trivial (ih h.tail.tail)
  | case2 c r hpair ih =>
    have hc : c ≠ '\r' := by
      rintro rfl
      have hfeed : (('\r' :: r)[0 + 1]?) = some '\n' := h 0 (Nat.succ_pos _) rfl
      obtain ⟨t, rfl⟩ : ∃ t, r = '\n' :: t := by
        cases r with
        | nil => cases hfeed
        | cons d t => exact ⟨t, by simpa using hfeed⟩
      exact hpair t rfl rfl
    exact .char ⟨rfl, hc⟩ (ih h.tail)
  | case3 => exact .nil

theorem eq_joinLines {s t : Text} (h : lineEnds.Alike s t) : t = joinLines s := by
  induction h with
  | nil => rfl
  | char hc _ ih => rw [joinLines_cons hc.2, ← hc.1, ih]
  | line _ _ ih => rw [joinLines, ih]

/-- No part of such a text ends between a carriage return and its line feed. -/
theorem getLast?_ne_return {s t : Text} (h : lineEnds.Alike s t) : s.getLast? ≠ some '\r' := by
  induction h with
  | nil => simp
  | @char c d s t hc _ ih =>
    cases s with
    | nil => simpa using hc.2
    | cons c' s => rwa [List.getLast?_cons_cons]
  | @line s t _ _ ih =>
    cases s with
    | nil => simp
    | cons c' s => rwa [List.getLast?_cons_cons, List.getLast?_cons_cons]

def Token.joinLines (t : Token) : Token := { t with value := CssLexer.joinLines t.value }

theorem eq_map_joinLines {ts us : List Token} (h : List.Forall₂ lineEnds.Tokens ts us) :
    us = ts.map Token.joinLines := by
  induction h with
  | nil => rfl
  | @cons t u ts us ht _ ih =>
    have htoken : u = t.joinLines := by
      obtain ⟨kind, value, line, column⟩ := u
      have hvalue : value = CssLexer.joinLines t.value := eq_joinLines ht.value
      rw [Token.joinLines, ht.kind, ht.line, ht.column, hvalue]
    rw [List.map_cons, ih, htoken]

/-- Line ends of two characters against line ends of one. If every carriage return of a text has its line feed, the
text with the line feeds alone has the same tokens, of the same kinds at the same lines and columns, and each value is
that of the text with the line feeds alone; and no two tokens meet between a carriage return and its line feed. -/
theorem tokenize_joinLines {s : Text} (h : PairedReturns s) :
    tokenize (joinLines s) = (tokenize s).map (fun t => { t with value := joinLines t.value }) ∧
    ∀ before behind, tokenize s = before ++ behind →
      ¬ ((spelled before).getLast? = some '\r' ∧ (spelled behind).head? = some '\n') := by
  have halike := alike_joinLines h
  have hmark : s.head? = some '\uFEFF' ↔ (joinLines s).head? = some '\uFEFF' := by
    generalize joinLines s = t at halike
    cases halike with
    | nil => rfl
    | char hc _ => rw [hc.1]; rfl
    | line => simp
  have htokens := tokenize_alike halike hmark
  refine ⟨eq_map_joinLines htokens, ?_⟩
  intro before behind hsplit ⟨hreturn, _⟩
  have hbefore := List.forall₂_take before.length htokens
  rw [hsplit, List.take_left] at hbefore
  exact getLast?_ne_return (alike_spelled hbefore) hreturn

/-- An escape, a continued line in a string, and blanks. -/
theorem tokenize_joinLines_mixed :
    PairedReturns "\\41\r\nb \"x\\\r\ny\"\r\n\r\n/*\r\n*/'" ∧
    tokenize "\\41\nb \"x\\\ny\"\n\n/*\n*/'" =
      [⟨.ident, "\\41\nb", 1, 1⟩, ⟨.space, " ", 2, 2⟩, ⟨.string, "\"x\\\ny\"", 2, 3⟩, ⟨.space, "\n\n", 3, 3⟩,
        ⟨.comment, "/*\n*/", 5, 1⟩, ⟨.badString, "'", 6, 3⟩] := by
  have hpaired : PairedReturns "\\41\r\nb \"x\\\r\ny\"\r\n\r\n/*\r\n*/'" := by decide
  refine ⟨hpaired, ?_⟩
  have h := (tokenize_joinLines hpaired).1
  have hjoin : joinLines "\\41\r\nb \"x\\\r\ny\"\r\n\r\n/*\r\n*/'" = "\\41\nb \"x\\\ny\"\n\n/*\n*/'" := by decide
  rw [hjoin] at h
  rw [h]
  decide +kernel

end CssLexer
