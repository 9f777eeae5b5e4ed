/-
  CssLexer.Proofs.Places — the place of every token, counted afresh from the text before it.

  `Position.behind p` counts the line feeds of `p`, the characters behind its last one, and its bytes. The scan keeps
  its place step by step instead; whatever its tokens span, the two agree before every call. A carriage return or a
  form feed is a character like any other to both.

  Proved:
  - `start_after`: moving over a text from its start leads to `behind` it.
  - `Reads.pairwise_place`: along a run, the end token included, line and column go up strictly.
  - `call_position`: both for every call on a scan of any text.
-/

import CssLexer.Proofs.Bytes.Cut
import CssLexer.Proofs.Lossless
import Mathlib.Data.List.DropRight
import Mathlib.Data.Prod.Lex

namespace CssLexer

namespace Position

/-- The place behind the text `p` when `p` is all that comes before: one line more than it has line feeds, one column
more than it has characters behind the last of them, as many bytes as it has. -/
def behind (p : Text) : Position := ⟨1 + p.count '\n', 1 + (p.rtakeWhile (· != '\n')).length, p.byteLength⟩

theorem behind_concat (p : Text) (c : Char) : behind (p ++ [c]) = (behind p).step c := by
  by_cases h : c = '\n'
  · subst h
    simp [behind, step, Nat.add_assoc]
  · simp [behind, step, h, Nat.add_assoc]

theorem start_after (p : Text) : start.after p = behind p := by
  induction p using List.reverseRecOn with
  | nil => rfl
  | append_singleton p c ih =>
    rw [after_append, ih, behind_concat]
    rfl

/-- Line and column, in reading order. -/
def place (p : Position) : Nat ×ₗ Nat := toLex (p.line, p.column)

theorem place_lt_step (p : Position) (c : Char) : p.place < (p.step c).place := by
  unfold place step
  rw [Prod.Lex.toLex_lt_toLex]
  split
  · exact Or.inl (Nat.lt_succ_self _)
  · exact Or.inr ⟨rfl, Nat.lt_succ_self _⟩

theorem place_le_after (p : Position) (s : Text) : p.place ≤ (p.after s).place := by
  induction s generalizing p with
  | nil => exact le_refl _
  | cons c s ih => exact le_trans (le_of_lt (p.place_lt_step c)) (ih (p.step c))

theorem place_lt_after (p : Position) {s : Text} (h : s ≠ []) : p.place < (p.after s).place := by
  obtain ⟨c, r, rfl⟩ := List.exists_cons_of_ne_nil h
  exact lt_of_lt_of_le (p.place_lt_step c) ((p.step c).place_le_after r)

end Position

def Token.place (t : Token) : Nat ×ₗ Nat := toLex (t.line, t.column)

namespace Reader

theorem Step.place {r next : Reader} {e : Entry} (h : Step r e next) : e.token.place = r.position.place := by
  unfold Token.place Position.place
  rw [h.line, h.column]

theorem Step.place_lt {r next : Reader} {e : Entry} (h : Step r e next) : r.position.place < next.position.place := by
  rw [h.position]
  exact r.position.place_lt_after h.nonempty

theorem Step.offset_lt {r next : Reader} {e : Entry} (h : Step r e next) :
    r.position.offset < next.position.offset := by
  have hpos := List.length_pos_iff.mpr h.nonempty
  have hle := Text.length_le_byteLength e.token.value
  rw [h.position, Position.after_offset]
  omega

/-- Behind a token no byte order mark counts. -/
theorem Step.not_atMark {r next : Reader} {e : Entry} (h : Step r e next) : ¬ AtMark next := by
  intro hmark
  have hlt := h.offset_lt
  rw [hmark.1] at hlt
  exact Nat.not_lt_zero _ hlt

theorem Reads.place_le {r last : Reader} {es : List Entry} (h : Reads r es last) :
    ∀ t ∈ es.map Entry.token ++ [last.endToken], r.position.place ≤ t.place := by
  induction h with
  | done r =>
    intro t ht
    rw [List.mem_singleton.mp ht]
    exact le_refl r.position.place
  | step he _ ih =>
    have hs := entry?_step he
    intro t ht
    rcases List.mem_cons.mp ht with rfl | ht
    · exact le_of_eq hs.place.symm
    · exact le_trans (le_of_lt hs.place_lt) (ih t ht)

theorem Reads.pairwise_place {r last : Reader} {es : List Entry} (h : Reads r es last) :
    (es.map Entry.token ++ [last.endToken]).Pairwise fun t u => t.place < u.place := by
  induction h with
  | done => exact List.pairwise_singleton _ _
  | step he hr ih =>
    have hs := entry?_step he
    refine List.pairwise_cons.mpr ⟨?_, ih⟩
    intro u hu
    rw [hs.place]
    exact lt_of_lt_of_le hs.place_lt (hr.place_le u hu)

end Reader

namespace Scan

/-- A token, the end token too, bears the place where the scan stands before the call. -/
theorem nextToken_place (s : Scan) :
    s.nextToken.result.line = s.position.line ∧ s.nextToken.result.column = s.position.column := by
  cases he : s.reader.entry? with
  | none =>
    rw [(nextToken_of_none he).1]
    exact ⟨rfl, rfl⟩
  | some found =>
    have hs := Reader.entry?_step he
    rw [(nextToken_of_some he).1]
    exact ⟨hs.line, hs.column⟩

/-- Before call `k`, `p` being the text of the tokens before it, a scan stands where `p` ends, counted in lines,
columns and bytes; the token of that call, the end token too, bears that line and column; so line and column go up
strictly along the tokens and the end token. -/
theorem call_position (s : Text) :
    (∀ k, let p := ((tokenize s).take k).flatMap Token.value
      ((ofText s).afterCalls k).position = .behind p ∧
      ((ofText s).call k).line = 1 + p.count '\n' ∧
      ((ofText s).call k).column = 1 + (p.rtakeWhile (· != '\n')).length) ∧
    (List.range (tokenize s).length).map (ofText s).call = tokenize s ∧
    ((ofText s).call (tokenize s).length).kind = .endOfText ∧
    (tokenize s ++ [(ofText s).call (tokenize s).length]).Pairwise fun t u =>
      t.line < u.line ∨ t.line = u.line ∧ t.column < u.column := by
  have hend : (ofText s).call (tokenize s).length = (Reader.ofText s).finish.endToken := call_of_ge (Nat.le_refl _)
  refine ⟨?_, (tokenize_eq_map_call s).symm, by rw [hend]; rfl, ?_⟩
  · intro k p
    have hp : ((ofText s).afterCalls k).position = .behind p := by
      rw [afterCalls_position, ← tokenize_eq]
      exact Position.start_after p
    have ht := nextToken_place ((ofText s).afterCalls k)
    rw [hp] at ht
    exact ⟨hp, ht.1, ht.2⟩
  · rw [hend]
    refine (Reader.entries_reads (Reader.ofText s)).pairwise_place.imp ?_
    intro t u h
    exact Prod.Lex.toLex_lt_toLex.mp h

end Scan

end CssLexer
