/-
  CssLexer.Proofs.Standalone — a lexeme cut out of its text is still that lexeme.

  What a production finds in a text it finds in every beginning of the text that holds all of the lexeme: the newline
  that cut a string off, the character that broke a url and the one that no number takes may all be missing, because
  the end of the text breaks off there as well. And what does not open in a text does not open in a beginning of it,
  so cutting never lets another production in.

  Proved:
  - `opens_append`: what opens at the start of a text opens there in every longer text.
  - `lexeme?_of_append`: what a production finds in `v ++ t`, if it ends within `v`, it finds in `v`.
  - `select?_of_lexeme?`, `select?_take`: so the whole table stays with its choice, down to the lexeme alone.
  - `tokenize_value`: so the value of a token is one token by itself, of the same kind, unless a byte order mark that
    belonged to a name now comes first.
-/

import CssLexer.Proofs.Extension
import CssLexer.Proofs.Restart

namespace CssLexer

/-! ## What opens in a longer text -/

section Opens

variable {v t : Text}

theorem any_head?_append {p : Char → Bool} (h : v.head?.any p = true) : (v ++ t).head?.any p = true := by
  cases v with
  | nil => cases h
  | cons c r => exact h

theorem itemOpens_append {p : Char → Bool} (h : itemOpens p v = true) : itemOpens p (v ++ t) = true := by
  cases v with
  | nil => cases h
  | cons c r =>
    simp only [List.cons_append, itemOpens, Bool.or_eq_true, Bool.and_eq_true] at h ⊢
    exact h.imp_right fun hescape => ⟨hescape.1, any_head?_append hescape.2⟩

theorem identOpens_cons_of_ne {c : Char} (h : c ≠ '-') (r : Text) :
    identOpens (c :: r) = itemOpens isNameStart (c :: r) := by
  rw [identOpens]
  intro _ heq
  cases heq
  exact h rfl

theorem identOpens_append (h : identOpens v = true) : identOpens (v ++ t) = true := by
  cases v with
  | nil => cases h
  | cons c r =>
    by_cases hc : c = '-'
    · subst hc
      exact itemOpens_append (v := r) h
    · rw [identOpens_cons_of_ne hc] at h
      rw [List.cons_append, identOpens_cons_of_ne hc, ← List.cons_append]
      exact itemOpens_append h

theorem numberOpens_append (h : numberOpens v = true) : numberOpens (v ++ t) = true := by
  simp only [numberOpens, Bool.or_eq_true] at h ⊢
  refine h.imp any_head?_append ?_
  intro hfraction
  unfold fractionOpens at hfraction
  split at hfraction
  · exact any_head?_append hfraction
  · cases hfraction

end Opens

namespace Production

theorem opens_append {p : Production} {v : Text} (t : Text) (h : p.opens v = true) : p.opens (v ++ t) = true := by
  cases p <;> simp only [opens] at h
  case comment =>
    split at h
    · rfl
    · cases h
  case whitespace => exact any_head?_append h
  case string => exact any_head?_append h
  case uri =>
    unfold afterUrlOpening? at h
    split at h
    · simp only [opens, List.cons_append, afterUrlOpening?]
      split at h
      · rename_i hall
        rw [if_pos hall]
        rfl
      · cases h
    · cases h
  case unicodeRange =>
    split at h
    · rw [Bool.and_eq_true] at h
      exact Bool.and_eq_true_iff.mpr ⟨h.1, any_head?_append h.2⟩
    · cases h
  case embedding =>
    split at h
    · rfl
    · rfl
    · cases h
  case attributeOperator =>
    split at h
    · exact h
    · cases h
  case numeric => exact numberOpens_append h
  case hash =>
    split at h
    · exact itemOpens_append h
    · cases h
  case identLike =>
    split at h
    · exact identOpens_append h
    · rename_i hat
      show identLike.opens (v ++ t) = true
      cases v with
      | nil => cases h
      | cons c r =>
        simp only [opens, List.cons_append]
        split
        · rename_i heq
          cases heq
          exact absurd rfl (hat r)
        · exact identOpens_append h
  case delim => exact any_head?_append h

/-- A production that finds nothing in a text, or a lexeme that ends within its first part, finds the same in that
part. -/
theorem lexeme?_of_append {p : Production} {v t : Text} (h : lengthOf (p.lexeme? (v ++ t)) ≤ v.length) :
    p.lexeme? (v ++ t) = p.lexeme? v := by
  cases hl : p.lexeme? (v ++ t) with
  | some l =>
    rw [hl, lengthOf_some] at h
    rw [← lexeme?_append (Or.inl ⟨l, hl, h⟩), hl]
  | none =>
    cases hv : p.lexeme? v with
    | none => rfl
    | some m =>
      have hopens := opens_append t (opens_of_lexeme? hv)
      rw [← isSome_lexeme?, hl] at hopens
      cases hopens

theorem select?_of_wins {p : Production} {s : Text} {l : Lexeme} (h : Wins p s) (hl : p.lexeme? s = some l) :
    select? s = some (p, l) := by
  cases hs : select? s with
  | none =>
    rw [(firstOf_eq_none_iff orderly_all).mp hs p] at hl
    cases hl
  | some found =>
    obtain ⟨q, m⟩ := found
    have hq : q = p := (firstOf_wins orderly_all hs).unique h
    subst hq
    rw [select?_lexeme? hs] at hl
    cases hl
    rfl

/-- If a text falls to a production, a beginning of it in which that production finds something falls to it as well. -/
theorem select?_of_lexeme? {v t : Text} {p : Production} {l m : Lexeme} (h : select? (v ++ t) = some (p, l))
    (hm : p.lexeme? v = some m) : select? v = some (p, m) := by
  have hwins : Wins p (v ++ t) := firstOf_wins orderly_all h
  exact select?_of_wins ⟨opens_of_lexeme? hm, fun q hq => hwins.yields q (opens_append t hq)⟩ hm

theorem select?_eq_none_of_append {v t : Text} (h : select? (v ++ t) = none) : select? v = none := by
  refine (firstOf_eq_none_iff orderly_all).mpr ?_
  intro p
  have hnone : p.lexeme? (v ++ t) = none := (firstOf_eq_none_iff orderly_all).mp h p
  rw [← Option.not_isSome_iff_eq_none, isSome_lexeme?] at hnone ⊢
  exact mt (opens_append t) hnone

theorem select?_take {s : Text} {p : Production} {l : Lexeme} (h : select? s = some (p, l)) :
    select? (s.take l.length) = some (p, l) := by
  have hl : p.lexeme? s = some l := select?_lexeme? h
  have hlength : (s.take l.length).length = l.length := List.length_take_of_le (lexeme?_length_le hl)
  rw [← List.take_append_drop l.length s] at h hl
  refine select?_of_lexeme? h ?_
  rw [← lexeme?_of_append (t := s.drop l.length), hl]
  rw [hl, lengthOf_some, hlength]

end Production

/-! ## Values of tokens -/

/-- A name that starts with a byte order mark, which it can only do behind the start of a text. -/
def Token.StartsWithMark (t : Token) : Prop :=
  (t.kind = .ident ∨ t.kind = .function) ∧ t.value.head? = some '\uFEFF'

instance (t : Token) : Decidable t.StartsWithMark := inferInstanceAs (Decidable (_ ∧ _))

namespace Reader

theorem tokenize_of_rule {v : Text} {kind : Kind} (hv : v ≠ []) (h : (ofText v).rule.2 = ⟨kind, v.length⟩) :
    tokenize v = [⟨kind, v, 1, 1⟩] := by
  have hread := entry?_of_ne_nil (r := ofText v) hv
  have hend : Reader.entry? ⟨[], (ofText v).position.after v⟩ = none := entry?_eq_none_iff.mpr rfl
  rw [h] at hread
  simp only [show (ofText v).remaining = v from rfl, List.take_length, List.drop_length] at hread
  show (ofText v).entries.map Entry.token = _
  rw [entries_of_some hread, entries_of_none hend]
  rfl

theorem select?_isSome_of_mark {s : Text} (h : s.head? = some '\uFEFF') :
    ∃ l, Production.select? s = some (.identLike, l) ∧ (l.kind = .ident ∨ l.kind = .function) := by
  obtain ⟨t, rfl⟩ := List.head?_eq_some_iff.mp h
  exact Production.select?_of_nonascii (by decide) t

theorem Step.tokenize_value {r next : Reader} {e : Entry} (h : Step r e next) (hname : ¬ e.token.StartsWithMark) :
    tokenize e.token.value = [⟨e.token.kind, e.token.value, 1, 1⟩] := by
  by_cases hmark : AtMark r
  · have hvalue : e.token.value = ['\uFEFF'] := by
      obtain ⟨t, ht⟩ := List.head?_eq_some_iff.mp hmark.2
      rw [h.value, rule_of_atMark hmark, ht]
      rfl
    have hkind : e.token.kind = .byteOrderMark := by rw [h.kind, rule_of_atMark hmark]
    rw [hvalue, hkind]
    exact tokenize_of_rule (List.cons_ne_nil _ _) rfl
  -- a byte order mark in front would make the token a name that starts with one
  have hmark' : ¬ AtMark (ofText e.token.value) := by
    intro h'
    have hremaining : r.remaining.head? = some '\uFEFF' := h.head? ▸ h'.2
    obtain ⟨l, hl, hkind⟩ := select?_isSome_of_mark hremaining
    refine hname ⟨?_, h'.2⟩
    rw [h.kind, rule_of_not_atMark hmark, hl]
    exact hkind
  apply tokenize_of_rule h.nonempty
  have hle : r.rule.2.length ≤ r.remaining.length := rule_length_le h.remaining_ne_nil
  have hselect : Production.select? (r.remaining.take r.rule.2.length) = Production.select? r.remaining := by
    cases hs : Production.select? r.remaining with
    | some found =>
      obtain ⟨p, l⟩ := found
      rw [rule_of_not_atMark hmark, hs]
      exact Production.select?_take hs
    | none =>
      refine Production.select?_eq_none_of_append (t := r.remaining.drop r.rule.2.length) ?_
      rwa [List.take_append_drop]
  have hrule : (ofText e.token.value).rule = r.rule := by
    rw [rule_of_not_atMark hmark', rule_of_not_atMark hmark, ← hselect, ← h.value]
    rfl
  rw [hrule, h.kind, h.value, List.length_take_of_le hle]

end Reader

/-- The value of a token is one token by itself, of the same kind. -/
theorem tokenize_value {s : Text} {t : Token} (ht : t ∈ tokenize s) (hname : ¬ t.StartsWithMark) :
    tokenize t.value = [⟨t.kind, t.value, 1, 1⟩] := by
  obtain ⟨r, e, next, hstep, rfl⟩ := exists_step_of_mem ht
  exact hstep.tokenize_value hname

/-- A lexeme stands on its own. Cut a text behind the bytes of the lexeme it falls to, and the part before falls to the
same production with the same lexeme, of as many bytes. So the value of a token, unless it is a name that starts with a
byte order mark, is by itself exactly one token of the same kind, at the start of the text; and such tokens of any two
texts have the same kind if they have the same value. -/
theorem lexeme_alone (s : Text) :
    (∀ p l, Production.select? s = some (p, l) → ∃ v r, s.cut (s.bytesIn l.length) = .ok (v, r) ∧
      Production.select? v = some (p, l) ∧ v.bytesIn l.length = s.bytesIn l.length) ∧
    (∀ t ∈ tokenize s, ¬ ((t.kind = .ident ∨ t.kind = .function) ∧ t.value.head? = some '\uFEFF') →
      tokenize t.value = [⟨t.kind, t.value, 1, 1⟩]) ∧
    ∀ s' : Text, ∀ t ∈ tokenize s, ∀ t' ∈ tokenize s',
      ¬ ((t.kind = .ident ∨ t.kind = .function) ∧ t.value.head? = some '\uFEFF') →
      ¬ ((t'.kind = .ident ∨ t'.kind = .function) ∧ t'.value.head? = some '\uFEFF') →
      t.value = t'.value → t.kind = t'.kind := by
  refine ⟨?_, fun t ht => tokenize_value ht, ?_⟩
  · intro p l h
    refine ⟨s.take l.length, s.drop l.length, s.cut_bytesIn l.length, Production.select?_take h, ?_⟩
    rw [Text.bytesIn, List.take_take, Nat.min_self]
    rfl
  · intro s' t ht t' ht' hname hname' hvalue
    have halone := tokenize_value ht hname
    rw [hvalue, tokenize_value ht' hname'] at halone
    have hkind : t'.kind = t.kind := by simpa using halone
    exact hkind.symm

end CssLexer
