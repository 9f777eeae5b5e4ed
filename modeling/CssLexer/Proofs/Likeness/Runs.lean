/-
  CssLexer.Proofs.Likeness.Runs — like texts are read alike.

  Two readers that stand at the same line and column before like texts read tokens of one kind at one place, with like
  values, and stand alike again behind them. Offsets in bytes may differ; they matter only for a byte order mark, which
  counts at the start of a text alone. A warning tells the character that no production accepts, and such a character
  is like itself alone.

  Proved:
  - `Alike.after`: moving over like texts leads to the same line and column.
  - `step_alike`, `entries_alike`: what one step keeps, and with it a whole run.
  - `tokenize_alike`: so like texts have like tokens.
  - `rest_printed`, `printed_alike`: reading to the end prints what the tokens give rise to, the same for like texts.
-/

import CssLexer.Proofs.Likeness.Lexemes
import CssLexer.Proofs.Strict
import Mathlib.Data.List.Forall2

namespace CssLexer

namespace Likeness

variable {L : Likeness} {s t : Text} {r r' next next' : Reader} {e e' : Entry}

theorem Alike.after (h : L.Alike s t) {p q : Position} (hline : p.line = q.line) (hcolumn : p.column = q.column) :
    (p.after s).line = (q.after t).line ∧ (p.after s).column = (q.after t).column := by
  induction h generalizing p q with
  | nil => exact ⟨hline, hcolumn⟩
  | @char c d s t hc _ ih =>
    have hfeed : c = '\n' ↔ d = '\n' := eq_iff_eq hc (by decide)
    have hstep : (p.step c).line = (q.step d).line ∧ (p.step c).column = (q.step d).column := by
      by_cases hn : c = '\n'
      · simp [Position.step, hn, hfeed.mp hn, hline]
      · simp [Position.step, hn, mt hfeed.mpr hn, hline, hcolumn]
    exact ih hstep.1 hstep.2
  | line _ _ ih =>
    -- the carriage return adds a column, which the line feed takes back
    have hstep : ((p.step '\r').step '\n').line = (q.step '\n').line := by simp [Position.step, hline]
    exact ih hstep rfl

/-- Two tokens of one kind, at one place and with one warning, whose values are alike. -/
structure Tokens (L : Likeness) (t u : Token) : Prop where
  kind : t.kind = u.kind
  line : t.line = u.line
  column : t.column = u.column
  warning : t.warning? = u.warning?
  value : L.Alike t.value u.value

/-- Two readers that stand at one line and column before like texts, both at a byte order mark or neither. -/
structure Readers (L : Likeness) (r r' : Reader) : Prop where
  remaining : L.Alike r.remaining r'.remaining
  line : r.position.line = r'.position.line
  column : r.position.column = r'.position.column
  mark : r.AtMark ↔ r'.AtMark

/-- What no production accepts starts no name and no line end, so it is the same in like texts. -/
theorem head?_of_select?_eq_none (h : L.Alike s t) (hs : Production.select? s = none) : s.head? = t.head? := by
  have hnone := (Production.firstOf_eq_none_iff Production.orderly_all).mp hs
  cases h with
  | nil => rfl
  | @char c d s t hc _ =>
    have hc' : isNameStart c = false := Production.not_isNameStart_of_identLike (hnone .identLike)
    rcases L.eq_or_isNameStart hc with rfl | ⟨hstart, -⟩
    · rfl
    · rw [hc'] at hstart
      cases hstart
  | @line s t =>
    have hspace : Lexeme.space? ('\r' :: '\n' :: s) = none := hnone .whitespace
    rw [Lexeme.space?_eq, countWhile_cons] at hspace
    simp [isWhitespace] at hspace

theorem rule_alike (h : L.Readers r r') (hr : r.remaining ≠ []) :
    L.Matches r.remaining r'.remaining r.rule.2 r'.rule.2 ∧
      (r.rule.2.kind = .unexpected → r.remaining.head? = r'.remaining.head?) := by
  have hone (hhead : r.remaining.head? = r'.remaining.head?) : L.Cut r.remaining 1 r'.remaining 1 := by
    have halike := h.remaining
    generalize r.remaining = s, r'.remaining = t at halike hhead hr
    cases halike with
    | nil => exact absurd rfl hr
    | char hc hrest => exact .one hc hrest
    | line => cases hhead
  by_cases hmark : r.AtMark
  · have hmark' := h.mark.mp hmark
    rw [Reader.rule_of_atMark hmark, Reader.rule_of_atMark hmark']
    exact ⟨⟨rfl, hone (hmark.2.trans hmark'.2.symm)⟩, fun hkind => by cases hkind⟩
  · rw [Reader.rule_of_not_atMark hmark, Reader.rule_of_not_atMark (mt h.mark.mpr hmark)]
    have hselect := Production.select?_alike h.remaining
    generalize hs : Production.select? r.remaining = o, Production.select? r'.remaining = o' at hselect ⊢
    cases hselect with
    | none =>
      -- no production accepts the character, so it is like itself alone
      have hhead := head?_of_select?_eq_none h.remaining hs
      exact ⟨⟨rfl, hone hhead⟩, fun _ => hhead⟩
    | @some a b hfound =>
      obtain ⟨p, l⟩ := a
      obtain ⟨q, m⟩ := b
      obtain ⟨rfl, hmatch⟩ := hfound
      refine ⟨hmatch, ?_⟩
      intro hkind
      have hmem := Production.lexeme?_kind (Production.select?_lexeme? hs)
      exact absurd (hkind ▸ hmem) p.unexpected_notMem_kinds

theorem warning?_eq {t u : Token} (hkind : t.kind = u.kind)
    (hvalue : t.kind = .unexpected → t.value.head? = u.value.head?) : t.warning? = u.warning? := by
  unfold Token.warning?
  rw [← hkind]
  cases hk : t.kind with
  | unexpected =>
    have hhead := hvalue hk
    rw [List.headD_eq_head?_getD, List.headD_eq_head?_getD, hhead]
  | _ => rfl

theorem step_alike (h : L.Readers r r') (he : r.entry? = some (e, next)) (he' : r'.entry? = some (e', next')) :
    L.Tokens e.token e'.token ∧ L.Readers next next' := by
  have hs := Reader.entry?_step he
  have hs' := Reader.entry?_step he'
  obtain ⟨hmatch, hhead⟩ := rule_alike h (Reader.remaining_ne_nil_of_some he)
  have hkind : e.token.kind = e'.token.kind := by rw [hs.kind, hs'.kind, hmatch.kind]
  have hvalue : L.Alike e.token.value e'.token.value := by
    rw [hs.value, hs'.value]
    exact hmatch.cut.front
  have hrest : L.Alike next.remaining next'.remaining := by
    rw [← hs.drop, ← hs'.drop]
    exact hmatch.cut.rest
  have hplace := hvalue.after h.line h.column
  rw [← hs.position, ← hs'.position] at hplace
  constructor
  · refine ⟨hkind, ?_, ?_, ?_, hvalue⟩
    · rw [hs.line, hs'.line, h.line]
    · rw [hs.column, hs'.column, h.column]
    · apply warning?_eq hkind
      intro hunexpected
      rw [hs.kind] at hunexpected
      have hsame := hhead hunexpected
      rwa [← hs.head?, ← hs'.head?] at hsame
  · exact ⟨hrest, hplace.1, hplace.2, iff_of_false hs.not_atMark hs'.not_atMark⟩

theorem alike_spelled {ts us : List Token} (h : List.Forall₂ L.Tokens ts us) :
    L.Alike (spelled ts) (spelled us) := by
  induction h with
  | nil => exact .nil
  | cons ht _ ih => exact ht.value.append ih

/-- Readers that stand alike have like tokens to the end of their texts. -/
theorem entries_alike (h : L.Readers r r') :
    List.Forall₂ L.Tokens (r.entries.map Entry.token) (r'.entries.map Entry.token) := by
  induction r using Reader.read_induction generalizing r' with
  | done r he =>
    have hnil := h.remaining.eq_nil_iff.mp (Reader.entry?_eq_none_iff.mp he)
    rw [Reader.entries_of_none he, Reader.entries_of_none (Reader.entry?_eq_none_iff.mpr hnil)]
    exact .nil
  | read r e next he ih =>
    cases he' : r'.entry? with
    | none =>
      have hnil := h.remaining.eq_nil_iff.mpr (Reader.entry?_eq_none_iff.mp he')
      exact absurd hnil (Reader.remaining_ne_nil_of_some he)
    | some found =>
      obtain ⟨e', next'⟩ := found
      obtain ⟨htoken, hnext⟩ := step_alike h he he'
      rw [Reader.entries_of_some he, Reader.entries_of_some he', List.map_cons, List.map_cons]
      exact .cons htoken (ih hnext)

/-- Like texts have like tokens, if a byte order mark starts both of them or neither. -/
theorem tokenize_alike (h : L.Alike s t) (hmark : s.head? = some '\uFEFF' ↔ t.head? = some '\uFEFF') :
    List.Forall₂ L.Tokens (tokenize s) (tokenize t) :=
  entries_alike ⟨h, rfl, rfl, and_congr Iff.rfl hmark⟩

end Likeness

/-! ## Warnings -/

/-- The lines that a log prints for tokens, one after another. -/
def WarningLog.lines (log : WarningLog) : List Token → List Text
  | [] => []
  | t :: ts => (Scan.report log t).1 ++ WarningLog.lines (Scan.report log t).2 ts

namespace Scan

theorem readUntilBehind_lines (before : List Token) (printed : List Text) (s : Scan) :
    (readUntilBehind (fun _ => false) before printed s).printed =
      printed ++ s.log.lines (s.reader.entries.map Entry.token) := by
  induction s using call_induction generalizing before printed with
  | done s he =>
    rw [readUntilBehind_of_none _ before printed he, Reader.entries_of_none he]
    exact (List.append_nil printed).symm
  | read s e next he ih =>
    obtain ⟨hprinted, hlog⟩ := nextToken_printed he
    rw [readUntilBehind_of_go _ before printed he (by simp), ih, hprinted, hlog, (nextToken_of_some he).2,
      Reader.entries_of_some he, List.append_assoc]
    rfl

theorem rest_printed (s : Scan) : s.rest.printed = s.log.lines (s.reader.entries.map Entry.token) :=
  readUntilBehind_lines [] [] s

end Scan

namespace Likeness

variable {L : Likeness} {s t : Text}

theorem lines_alike (log : WarningLog) {ts us : List Token} (h : List.Forall₂ L.Tokens ts us) :
    log.lines ts = log.lines us := by
  induction h generalizing log with
  | nil => rfl
  | @cons t u ts us ht _ ih =>
    have hreport : Scan.report log t = Scan.report log u := by
      unfold Scan.report
      rw [ht.warning]
    rw [WarningLog.lines, WarningLog.lines, hreport, ih]

theorem printed_alike (h : L.Alike s t) (hmark : s.head? = some '\uFEFF' ↔ t.head? = some '\uFEFF') :
    (Scan.ofText s).rest.printed = (Scan.ofText t).rest.printed := by
  rw [Scan.rest_printed, Scan.rest_printed]
  exact lines_alike _ (tokenize_alike h hmark)

end Likeness

end CssLexer
