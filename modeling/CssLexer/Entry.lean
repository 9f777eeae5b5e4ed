/-
  CssLexer.Entry — cutting a text into tokens.

  `Reader.entry?` reads one token by the rule that applies at the reader's place; `entries` repeats it to the end of
  the text. A byte order mark counts as one only at offset zero, and a character that no production accepts becomes a
  token of its own, so reading always moves on and never fails.

  Proved: every rule takes at least one character (`rule_length_pos`), so reading shortens what remains
  (`entry?_remaining_lt`).
-/

import CssLexer.Production.Progress
import CssLexer.Reader
import CssLexer.Token

namespace CssLexer

/-- What makes a piece of text a token. -/
inductive Rule where
  | byteOrderMark
  | production (p : Production)
  /-- No production accepts the character. -/
  | unexpected
  deriving DecidableEq, Repr

def Rule.label : Rule → Text
  | byteOrderMark => "bom"
  | production p => p.label
  | unexpected => "error"

structure Entry where
  rule : Rule
  token : Token
  deriving DecidableEq, Repr

/-- The line of a trace for a token. -/
def Entry.trace (e : Entry) : Text :=
  "[SCAN] " ++ e.rule.label ++ " -> " ++ e.token.kind.label ++ " at " ++ decimal e.token.line ++ ":" ++
    decimal e.token.column ++ " (" ++ decimal (Text.byteLength e.token.value) ++ " bytes)"

namespace Reader

def rule (r : Reader) : Rule × Lexeme :=
  if r.position.offset = 0 ∧ r.remaining.head? = some '\uFEFF' then (.byteOrderMark, ⟨.byteOrderMark, 1⟩)
  else match Production.select? r.remaining with
    | some (p, lexeme) => (.production p, lexeme)
    | none => (.unexpected, ⟨.unexpected, 1⟩)

def entry? (r : Reader) : Option (Entry × Reader) :=
  if r.atEnd then none
  else
    let found := r.rule
    let read := r.take found.2.length
    some (⟨found.1, found.2.kind, read.1, r.position.line, r.position.column⟩, read.2)

def endToken (r : Reader) : Token := ⟨.endOfText, [], r.position.line, r.position.column⟩

end Reader

/-! ## Reading moves on -/

namespace Reader

theorem rule_length_pos (r : Reader) : 0 < r.rule.2.length := by
  unfold rule
  split
  · decide
  · split
    · exact Production.lexeme?_length_pos (Production.select?_lexeme? ‹_›)
    · decide

theorem entry?_remaining_lt {r next : Reader} {e : Entry} (h : r.entry? = some (e, next)) :
    next.remaining.length < r.remaining.length := by
  unfold entry? at h
  split at h
  · cases h
  · rename_i hne
    simp only [Option.some.injEq, Prod.mk.injEq] at h
    rw [← h.2]
    have hpos := r.rule_length_pos
    simp only [take, List.length_drop]
    have : 0 < r.remaining.length := by
      cases hs : r.remaining with
      | nil => simp [atEnd, hs] at hne
      | cons c s => simp
    omega

end Reader

/-! ## Whole texts -/

/-- What is read from a reader to the end of its text, behind the entries in `before`, the last of which comes
first. -/
def entriesBehind (before : List Entry) (r : Reader) : List Entry :=
  match _h : r.entry? with
  | none => before.reverse
  | some (e, next) => entriesBehind (e :: before) next
termination_by r.remaining.length
decreasing_by exact Reader.entry?_remaining_lt _h

namespace Reader

def entries (r : Reader) : List Entry := entriesBehind [] r

theorem entriesBehind_append (xs before : List Entry) (r : Reader) :
    entriesBehind (xs ++ before) r = before.reverse ++ entriesBehind xs r := by
  fun_induction entriesBehind xs r with
  | case1 xs r h =>
    rw [entriesBehind]
    split <;> simp_all
  | case2 xs r e next h ih =>
    rw [entriesBehind]
    split
    · simp_all
    · rename_i heq
      rw [h] at heq
      cases heq
      exact ih

theorem entries_eq (r : Reader) :
    r.entries = match r.entry? with
      | none => []
      | some (e, next) => e :: next.entries := by
  unfold entries
  rw [entriesBehind]
  split
  · simp_all
  · rename_i e next h
    simp only [h]
    exact entriesBehind_append [] [e] next

end Reader

def entries (s : Text) : List Entry := (Reader.ofText s).entries

/-- The tokens of a text, without the one that stands for its end. -/
def tokenize (s : Text) : List Token := (entries s).map Entry.token

end CssLexer
