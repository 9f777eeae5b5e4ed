/-
  CssLexer.Proofs.Lossless — a scan reaches the end of every text, and its tokens spell the text.

  Proved (`tokenize_lossless`): for every text there is a call of `nextToken`, at the latest the one behind as many
  calls as the text has characters, that gives the end token; the calls before it give the tokens of the text, each
  with a value and none of them an end token; and the values in a row are the text, malformed or not.
-/

import CssLexer.Proofs.Reading
import Mathlib.Data.List.GetD

namespace CssLexer

theorem tokenize_eq (s : Text) : tokenize s = (Scan.ofText s).reader.entries.map Entry.token := rfl

theorem spelled_tokenize (s : Text) : spelled (tokenize s) = s := by
  have h := (Reader.entries_reads (Reader.ofText s)).remaining
  rw [show (Reader.ofText s).finish.remaining = [] from rfl, List.append_nil] at h
  exact h.symm

theorem length_tokenize_le (s : Text) : (tokenize s).length ≤ s.length := by
  have h := (Reader.entries_reads (Reader.ofText s)).length_le
  rw [tokenize_eq, List.length_map]
  show (Reader.ofText s).entries.length ≤ s.length
  exact Nat.le_trans (Nat.le_add_right _ _) h

theorem exists_step_of_mem {s : Text} {t : Token} (h : t ∈ tokenize s) :
    ∃ r e next, Reader.Step r e next ∧ e.token = t := by
  obtain ⟨e, he, rfl⟩ := List.mem_map.mp h
  obtain ⟨r, next, hstep⟩ := (Reader.entries_reads (Reader.ofText s)).exists_step e he
  exact ⟨r, e, next, hstep, rfl⟩

theorem mem_tokenize {s : Text} {t : Token} (h : t ∈ tokenize s) : t.value ≠ [] ∧ t.kind ≠ .endOfText := by
  obtain ⟨r, e, next, hstep, rfl⟩ := exists_step_of_mem h
  exact ⟨hstep.nonempty, hstep.kind_ne_endOfText⟩

theorem call_of_lt {s : Text} {n : Nat} (h : n < (tokenize s).length) :
    (Scan.ofText s).call n = (tokenize s)[n] := by
  rw [Scan.call_eq, ← tokenize_eq, List.getD_eq_getElem _ _ h]

theorem call_of_ge {s : Text} {n : Nat} (h : (tokenize s).length ≤ n) :
    (Scan.ofText s).call n = (Reader.ofText s).finish.endToken := by
  rw [Scan.call_eq, ← tokenize_eq, List.getD_eq_default _ _ h]
  rfl

theorem tokenize_eq_map_call (s : Text) :
    tokenize s = (List.range (tokenize s).length).map (Scan.ofText s).call := by
  apply List.ext_getElem
  · simp
  · intro n h _
    rw [List.getElem_map, List.getElem_range, call_of_lt h]

/-- Calling `nextToken` again and again reaches the end of the text, after no more calls than it has characters; each
call before gives a token with a value; these are the tokens of the text, which a scan collects, and their values in a
row are the text. -/
theorem tokenize_lossless (s : Text) :
    ∃ n ≤ s.length,
      ((Scan.ofText s).call n).kind = .endOfText ∧
      (∀ k < n, ((Scan.ofText s).call k).kind ≠ .endOfText ∧ ((Scan.ofText s).call k).value ≠ []) ∧
      (List.range n).map (Scan.ofText s).call = tokenize s ∧
      (Scan.ofText s).rest.result = tokenize s ∧
      (tokenize s).flatMap Token.value = s := by
  refine ⟨(tokenize s).length, length_tokenize_le s, ?_, ?_, (tokenize_eq_map_call s).symm, Scan.rest_ofText s,
    spelled_tokenize s⟩
  · rw [call_of_ge (Nat.le_refl _)]
    rfl
  · intro k hk
    have hm := mem_tokenize (s := s) (List.getElem_mem hk)
    rw [call_of_lt hk]
    exact ⟨hm.2, hm.1⟩

end CssLexer
