/-
  CssLexer.Proofs.PrefixStability — text put behind a text changes at most its last three tokens.

  A lexeme can turn out otherwise when text is put behind `s` only if it ends less than three characters before the
  end of `s`: `<!-` is three characters to which a fourth may give another meaning, `1-\` and `@-\` are a lexeme and two
  characters behind it. A token has a character at least, so what comes with such a lexeme makes three tokens at most.

  Proved:
  - `select?_append`, `rule_extend`: with four characters or more in the text, the table stays with a lexeme that has
    three characters behind it, because no production takes more than the selected one.
  - `entry?_extend`, `entries_extend`: a run goes on as before while three characters are left behind each token.
  - `prefix_stable`: so all tokens but the last three stay, and three are needed.
-/

import CssLexer.Proofs.Extension
import CssLexer.Proofs.Lossless

namespace CssLexer

namespace Production

variable {s t : Text}

/-- No production takes more than the selected one, so the selection stays as it is if that one leaves three
characters behind it. -/
theorem select?_append (hlen : 3 < s.length) (h : lengthOf ((select? s).map Prod.snd) + 2 < s.length) :
    select? (s ++ t) = select? s := by
  -- not only the selected production: one that comes before it in the table must not find a lexeme now
  have hall (q : Production) : q.lexeme? (s ++ t) = q.lexeme? s := by
    refine lexeme?_append (Or.inr ⟨hlen, ?_⟩)
    cases hq : q.lexeme? s with
    | none =>
      rw [lengthOf_none]
      omega
    | some m =>
      cases hs : select? s with
      | none =>
        rw [(firstOf_eq_none_iff orderly_all).mp hs q] at hq
        cases hq
      | some found =>
        obtain ⟨p, l⟩ := found
        have hle : m.length ≤ l.length := (firstOf_wins orderly_all hs).length_le (firstOf_lexeme? hs) hq
        rw [hs] at h
        have hshort : l.length + 2 < s.length := h
        rw [lengthOf_some]
        omega
  simp only [select?, hall]

end Production

/-! ## Readers -/

namespace Reader

def extend (r : Reader) (t : Text) : Reader := ⟨r.remaining ++ t, r.position⟩

variable {r next : Reader} {e : Entry} {t : Text}

theorem atMark_extend (h : r.remaining ≠ []) : AtMark (r.extend t) ↔ AtMark r := by
  unfold AtMark extend
  rw [List.head?_append_of_ne_nil _ h]

theorem rule_extend (h : r.rule.2.length + 2 < r.remaining.length) : (r.extend t).rule = r.rule := by
  have hne : r.remaining ≠ [] := List.ne_nil_of_length_pos (by omega)
  by_cases hmark : AtMark r
  · rw [rule_of_atMark hmark, rule_of_atMark ((atMark_extend hne).mpr hmark)]
  · have hpos := r.rule_length_pos
    rw [rule_of_not_atMark hmark] at h hpos ⊢
    rw [rule_of_not_atMark (mt (atMark_extend hne).mp hmark)]
    have hselect : Production.select? (r.extend t).remaining = Production.select? r.remaining := by
      apply Production.select?_append (by omega)
      cases hs : Production.select? r.remaining with
      | none =>
        show 0 + 2 < _
        omega
      | some found =>
        rw [hs] at h
        exact h
    rw [hselect]

theorem entry?_extend_of_rule (h : r.entry? = some (e, next)) (hrule : (r.extend t).rule = r.rule) :
    Reader.entry? (r.extend t) = some (e, next.extend t) := by
  have hne := remaining_ne_nil_of_some h
  have hle := rule_length_le hne
  rw [entry?_of_ne_nil hne] at h
  cases h
  rw [entry?_of_ne_nil (List.append_ne_nil_of_left_ne_nil hne t), hrule]
  simp only [extend, List.take_append_of_le_length hle, List.drop_append_of_le_length hle]

theorem entry?_extend (h : r.entry? = some (e, next)) (hlen : 2 < next.remaining.length) :
    Reader.entry? (r.extend t) = some (e, next.extend t) := by
  have hrest := congrArg List.length (entry?_step h).drop
  rw [List.length_drop] at hrest
  exact entry?_extend_of_rule h (rule_extend (by omega))

/-- All entries but the last three are those of any longer text. -/
theorem entries_extend (r : Reader) (t : Text) :
    r.entries.take (r.entries.length - 3) <+: (r.extend t).entries := by
  induction hes : r.entries generalizing r with
  | nil => exact List.nil_prefix
  | cons e es ih =>
    cases he : r.entry? with
    | none =>
      rw [entries_of_none he] at hes
      cases hes
    | some found =>
      obtain ⟨e', next⟩ := found
      rw [entries_of_some he] at hes
      cases hes
      by_cases hfew : next.entries.length < 3
      · have hzero : (e :: next.entries).length - 3 = 0 := by rw [List.length_cons]; omega
        rw [hzero, List.take_zero]
        exact List.nil_prefix
      · -- three entries at least are still to come, and each of them takes a character
        have hchars := next.entries_reads.length_le
        have hrest : (e :: next.entries).length - 3 = next.entries.length - 3 + 1 := by rw [List.length_cons]; omega
        rw [hrest, List.take_succ_cons, entries_of_some (entry?_extend he (by omega))]
        exact (List.prefix_cons_inj e).mpr (ih next rfl)

end Reader

/-- Text put behind a text changes no tokens but the last three, and it can change the first of them. -/
theorem prefix_stable :
    (∀ s t : Text, (tokenize s).take ((tokenize s).length - 3) <+: tokenize (s ++ t)) ∧
    ∀ p ∈ ([("<!-", "-"), ("1-\\", "a"), ("@-\\", "a")] : List (Text × Text)),
      (tokenize p.1).length = 3 ∧ ¬ (tokenize p.1).take 1 <+: tokenize (p.1 ++ p.2) := by
  refine ⟨?_, by decide +kernel⟩
  intro s t
  have h := ((Reader.ofText s).entries_extend t).map Entry.token
  rw [List.map_take, ← List.length_map (f := Entry.token)] at h
  exact h

end CssLexer
