/-
  CssLexer.Proofs.Adjacency — what never stands directly behind what.

  A lexeme stops where its production cannot go on, and there the next token is read. So the text behind a lexeme lacks
  whatever would have gone on the lexeme, which rules out kinds of tokens and first characters (`Apart`). What the next
  token can be, where something is lacking, is read off the table of the dispatch.

  Proved:
  - `runLength_stops`, `identLength?_stops`, `numberLength?_stops`: what is not found behind a run, a name and a number.
  - `Step.stops_name` to `Step.closed_comment`: what is not found behind a token of each kind; `Step.identStarting` to
    `Step.kind_of_newline`: what a token of each kind starts with.
  - `Step.apart`: two tokens in a row are apart.
  - `tokens_apart`: so any two neighbours in a text are.
-/

import CssLexer.Proofs.Dispatch
import Mathlib.Data.List.Chain

namespace CssLexer

/-! ## Where counts stop -/

theorem countWhile_stops (p : Char → Bool) (s : Text) : (s.drop (countWhile p s)).head?.any p = false := by
  induction s with
  | nil => rfl
  | cons c r ih =>
    by_cases hc : p c = true
    · rw [countWhile, List.takeWhile_cons_of_pos hc, List.length_cons, List.drop_succ_cons]
      exact ih
    · rw [countWhile, List.takeWhile_cons_of_neg hc]
      simpa using hc

/-- Behind a run no item starts. -/
theorem runLength_stops {item : Item} (hi : ∀ {c : Char} {r : Text} {k : Nat}, item c r = some k → k ≤ r.length)
    {s r : Text} {c : Char} (h : s.drop (runLength item s) = c :: r) : item c r = none := by
  induction hn : s.length using Nat.strongRecOn generalizing s with
  | _ n ih =>
    cases s with
    | nil => cases h
    | cons d t =>
      cases hk : item d t with
      | none =>
        rw [runLength_cons_of_none hk, List.drop_zero] at h
        cases h
        exact hk
      | some k =>
        rw [runLength_cons_of_some hk, Nat.min_eq_left (hi hk), Nat.add_assoc, drop_one_add, ← List.drop_drop] at h
        rw [List.length_cons] at hn
        exact ih (t.drop k).length (by rw [List.length_drop]; omega) h rfl

theorem nameLength_stops (s : Text) : itemOpens isNameChar (s.drop (nameLength s)) = false := by
  cases h : s.drop (nameLength s) with
  | nil => rfl
  | cons c r => rw [← isSome_charOrEscape, runLength_stops charOrEscape_le h, Option.isSome_none]

theorem startedNameLength?_stops {s : Text} {n : Nat} (h : startedNameLength? s = some n) :
    itemOpens isNameChar (s.drop n) = false := by
  cases s with
  | nil => cases h
  | cons c r =>
    rw [startedNameLength?, Option.map_eq_some_iff] at h
    obtain ⟨k, -, rfl⟩ := h
    rw [Nat.add_assoc, drop_one_add, ← List.drop_drop]
    exact nameLength_stops (r.drop k)

theorem identLength?_stops {s : Text} {n : Nat} (h : identLength? s = some n) :
    itemOpens isNameChar (s.drop n) = false := by
  unfold identLength? at h
  split at h
  · rw [Option.map_eq_some_iff] at h
    obtain ⟨k, hk, rfl⟩ := h
    rw [drop_one_add]
    exact startedNameLength?_stops hk
  · exact startedNameLength?_stops h

theorem markedLength_stops {mark : Char} {s : Text} (h : markedLength mark (countWhile isDigit) s ≠ 0) :
    (s.drop (markedLength mark (countWhile isDigit) s)).head?.any isDigit = false ∧
      mark ∈ s.take (markedLength mark (countWhile isDigit) s) := by
  cases s with
  | nil => exact absurd rfl h
  | cons c r =>
    rw [markedLength] at h ⊢
    split at h
    · rename_i hc
      split at h
      · exact absurd rfl h
      · rename_i hr
        rw [if_pos hc, if_neg hr, drop_one_add, hc, Nat.add_comm, List.take_succ_cons]
        exact ⟨countWhile_stops isDigit r, List.mem_cons_self⟩
    · exact absurd rfl h

/-- Behind a number no digit follows, and no fraction either if the number has none. -/
theorem numberLength?_stops {s : Text} {n : Nat} (h : numberLength? s = some n) :
    (s.drop n).head?.any isDigit = false ∧ ('.' ∉ s.take n → fractionOpens (s.drop n) = false) := by
  rw [numberLength?_eq] at h
  split at h
  · cases h
  · cases h
    rw [← List.drop_drop, fractionLength_eq]
    by_cases hf : markedLength '.' (countWhile isDigit) (s.drop (countWhile isDigit s)) = 0
    · rw [hf, List.drop_zero]
      refine ⟨countWhile_stops isDigit s, fun _ => ?_⟩
      rw [← fractionLength_eq_zero_iff, fractionLength_eq, hf]
    · obtain ⟨hdigit, hmark⟩ := markedLength_stops hf
      refine ⟨hdigit, fun hdot => absurd ?_ hdot⟩
      rw [List.take_add]
      exact List.mem_append_right _ hmark

theorem quotation?_stops {s r : Text} {n : Nat} {c : Char} (h : quotation? s = some (n, false))
    (hr : s.drop n = c :: r) : isNewline c = true := by
  cases s with
  | nil => cases h
  | cons quote t =>
    by_cases hq : isQuote quote = true
    · rw [quotation?_cons hq] at h
      split at h
      · cases h
      · rename_i hopen
        cases h
        rw [drop_one_add] at hr
        have hnone := runLength_stops quotedItem_le hr
        rw [hr, List.head?_cons, Option.some_inj] at hopen
        rw [quotedItem_eq, if_neg (by simpa using hopen)] at hnone
        split at hnone
        · cases hnone
        · split at hnone
          · assumption
          · cases hnone
    · rw [quotation?, if_neg hq] at h
      cases h

/-! ## What is behind a lexeme -/

namespace Lexeme

variable {s : Text} {l : Lexeme}

theorem space?_stops (h : space? s = some l) : (s.drop l.length).head?.any isWhitespace = false := by
  rw [space?_eq] at h
  split at h
  · cases h
  · cases h
    exact countWhile_stops isWhitespace s

theorem hash?_stops (h : hash? s = some l) : itemOpens isNameChar (s.drop l.length) = false := by
  unfold hash? at h
  split at h
  · rename_i r
    rw [← hash?, hash?_cons] at h
    split at h
    · cases h
    · cases h
      rw [drop_one_add]
      exact nameLength_stops r
  · cases h

theorem identLike?_stops (h : identLike? s = some l) (hk : l.kind ≠ .function) :
    itemOpens isNameChar (s.drop l.length) = false ∧ (l.kind = .ident → (s.drop l.length).head? ≠ some '(') := by
  cases s with
  | nil => cases h
  | cons c r =>
    by_cases hc : c = '@'
    · subst hc
      rw [identLike?_at, Option.map_eq_some_iff] at h
      obtain ⟨n, hn, rfl⟩ := h
      rw [drop_one_add]
      exact ⟨identLength?_stops hn, nofun⟩
    · rw [identLike?_of_ne hc, Option.map_eq_some_iff] at h
      obtain ⟨n, hn, rfl⟩ := h
      by_cases hopening : ((c :: r).drop n).head? = some '('
      · obtain ⟨t, ht⟩ := List.head?_eq_some_iff.mp hopening
        rw [ht] at hk
        exact absurd rfl hk
      · rw [identWith_of_ne hopening]
        exact ⟨identLength?_stops hn, fun _ => hopening⟩

theorem identLike?_starts (h : identLike? s = some l) (hk : l.kind ≠ .atKeyword) : IdentStarting s := by
  cases s with
  | nil => cases h
  | cons c r =>
    by_cases hc : c = '@'
    · subst hc
      rw [identLike?_at, Option.map_eq_some_iff] at h
      obtain ⟨n, -, rfl⟩ := h
      exact absurd rfl hk
    · rw [identLike?_of_ne hc, Option.map_eq_some_iff] at h
      obtain ⟨n, hn, -⟩ := h
      rw [← identOpens_iff, ← isSome_identLength?, hn]
      rfl

theorem numeric?_stops_dimension (h : numeric? s = some l) (hk : l.kind = .dimension) :
    itemOpens isNameChar (s.drop l.length) = false := by
  rw [numeric?_eq, Option.map_eq_some_iff] at h
  obtain ⟨n, -, rfl⟩ := h
  by_cases hpercent : (s.drop n).head? = some '%'
  · obtain ⟨t, ht⟩ := List.head?_eq_some_iff.mp hpercent
    rw [ht] at hk
    cases hk
  · rw [numberWith_of_ne hpercent] at hk ⊢
    cases hunit : identLength? (s.drop n) with
    | none =>
      rw [hunit] at hk
      cases hk
    | some unit =>
      rw [← List.drop_drop]
      exact identLength?_stops hunit

theorem numeric?_stops_number (h : numeric? s = some l) (hk : l.kind = .number) :
    (s.drop l.length).head? ≠ some '%' ∧ identOpens (s.drop l.length) = false ∧
      (s.drop l.length).head?.any isDigit = false ∧
      ('.' ∉ s.take l.length → fractionOpens (s.drop l.length) = false) := by
  rw [numeric?_eq, Option.map_eq_some_iff] at h
  obtain ⟨n, hn, rfl⟩ := h
  by_cases hpercent : (s.drop n).head? = some '%'
  · obtain ⟨t, ht⟩ := List.head?_eq_some_iff.mp hpercent
    rw [ht] at hk
    cases hk
  · rw [numberWith_of_ne hpercent] at hk ⊢
    cases hunit : identLength? (s.drop n) with
    | some unit =>
      rw [hunit] at hk
      cases hk
    | none =>
      refine ⟨hpercent, ?_, numberLength?_stops hn⟩
      rw [← isSome_identLength?, hunit]
      rfl

theorem string?_stops {c : Char} {r : Text} (h : string? s = some l) (hk : l.kind = .badString)
    (hr : s.drop l.length = c :: r) : isNewline c = true := by
  rw [string?, Option.map_eq_some_iff] at h
  obtain ⟨⟨n, closed⟩, hq, rfl⟩ := h
  cases closed with
  | true => cases hk
  | false => exact quotation?_stops hq hr

theorem comment?_closed (h : comment? s = some l) (hr : s.drop l.length ≠ []) :
    ∃ body : Text, s.take l.length = "/*" ++ body ++ "*/" := by
  unfold comment? at h
  split at h
  · rename_i r
    rw [← comment?, comment?_cons] at h
    cases h
    rcases drop_commentBody r with hend | ⟨t, ht⟩
    · -- the body reaches the end of the text, so nothing is behind the comment
      refine absurd ?_ hr
      rw [if_pos hend, Nat.add_zero, Nat.add_comm]
      exact hend
    · refine ⟨r.take (runLength commentItem r), ?_⟩
      have hsplit := List.take_append_drop (runLength commentItem r) r
      rw [if_neg (by rw [ht]; exact List.cons_ne_nil _ _), Nat.add_assoc, Nat.add_comm]
      show '/' :: '*' :: r.take (runLength commentItem r + 2) = _
      rw [List.take_add, ht]
      rfl
  · cases h

end Lexeme

/-! ## Starts of tokens -/

theorem ItemStarting.mono {P Q : Char → Prop} (hPQ : ∀ c, P c → Q c) {s : Text} (h : ItemStarting P s) :
    ItemStarting Q s := by
  cases h with
  | char r hc => exact .char r (hPQ _ hc)
  | escape r hc => exact .escape r hc

theorem IdentStarting.item {s : Text} (h : IdentStarting s) : ItemStarting ContinuesName s := by
  cases h with
  | name hs => exact hs.mono fun _ => .inl
  | dash hs => exact .char _ (.inr (.inr rfl))

theorem UrlStarting.letterU {c : Char} {r : Text} (h : UrlStarting (c :: r)) : c = 'u' ∨ c = 'U' := by
  have hu : c.toLower = 'u' := List.head_eq_of_cons_eq h
  exact isLetterOf_u_iff.mp (beq_iff_eq.mpr hu)

theorem RangeStarting.letterU {c : Char} {r : Text} (h : RangeStarting (c :: r)) : c = 'u' ∨ c = 'U' := by
  obtain ⟨u, d, t, heq, hu, -⟩ := h
  cases heq
  exact hu

theorem identStarting_of_letterU {u : Char} (hu : u = 'u' ∨ u = 'U') (r : Text) : IdentStarting (u :: r) := by
  refine .name (.char r ?_)
  rcases hu with rfl | rfl <;> decide

namespace Reader

variable {r next : Reader} {e : Entry}

theorem Step.opens (h : Step r e next) (p : Production) (hk : e.token.kind ∈ p.kinds) : p.opens r.remaining = true := by
  obtain ⟨l, hl, -⟩ := h.lexeme? p hk
  exact Production.opens_of_lexeme? hl

/-! ## What is behind a token -/

theorem Step.stops_name (h : Step r e next) (hk : e.token.kind ∈ [Kind.ident, .atKeyword, .hash, .dimension]) :
    ¬ ItemStarting ContinuesName next.remaining := by
  rw [← itemOpens_iff isNameChar_iff, Bool.not_eq_true]
  simp only [List.mem_cons, List.not_mem_nil, or_false] at hk
  rcases hk with hk | hk | hk | hk
  · obtain ⟨l, hl, hkind, -, hdrop⟩ := h.lexeme? .identLike (by rw [hk]; decide)
    rw [hdrop]
    exact (Lexeme.identLike?_stops hl (by rw [hkind, hk]; decide)).1
  · obtain ⟨l, hl, hkind, -, hdrop⟩ := h.lexeme? .identLike (by rw [hk]; decide)
    rw [hdrop]
    exact (Lexeme.identLike?_stops hl (by rw [hkind, hk]; decide)).1
  · obtain ⟨l, hl, -, -, hdrop⟩ := h.lexeme? .hash (by rw [hk]; decide)
    rw [hdrop]
    exact Lexeme.hash?_stops hl
  · obtain ⟨l, hl, hkind, -, hdrop⟩ := h.lexeme? .numeric (by rw [hk]; decide)
    rw [hdrop]
    exact Lexeme.numeric?_stops_dimension hl (hkind.trans hk)

theorem Step.stops_space (h : Step r e next) (hk : e.token.kind = .space) :
    next.remaining.head?.any isWhitespace = false := by
  obtain ⟨l, hl, -, -, hdrop⟩ := h.lexeme? .whitespace (by rw [hk]; decide)
  rw [hdrop]
  exact Lexeme.space?_stops hl

theorem Step.stops_ident (h : Step r e next) (hk : e.token.kind = .ident) : next.remaining.head? ≠ some '(' := by
  obtain ⟨l, hl, hkind, -, hdrop⟩ := h.lexeme? .identLike (by rw [hk]; decide)
  rw [hdrop]
  exact (Lexeme.identLike?_stops hl (by rw [hkind, hk]; decide)).2 (hkind.trans hk)

theorem Step.stops_number (h : Step r e next) (hk : e.token.kind = .number) :
    next.remaining.head? ≠ some '%' ∧ ¬ IdentStarting next.remaining ∧
      next.remaining.head?.any isDigit = false ∧ ('.' ∉ e.token.value → fractionOpens next.remaining = false) := by
  obtain ⟨l, hl, hkind, hvalue, hdrop⟩ := h.lexeme? .numeric (by rw [hk]; decide)
  rw [hdrop, hvalue, ← identOpens_iff, Bool.not_eq_true]
  exact Lexeme.numeric?_stops_number hl (hkind.trans hk)

/-- A string that is cut off, and a backslash alone, stand before the end of a line or of the text. -/
theorem Step.stops_cut (h : Step r e next)
    (hk : e.token.kind = .badString ∨ (e.token.kind = .delim ∧ e.token.value = ['\\'])) {c : Char} {s : Text}
    (hs : next.remaining = c :: s) : isNewline c = true := by
  rcases hk with hk | ⟨hk, hvalue⟩
  · obtain ⟨l, hl, hkind, -, hdrop⟩ := h.lexeme? .string (by rw [hk]; decide)
    exact Lexeme.string?_stops hl (hkind.trans hk) (hdrop ▸ hs)
  · obtain ⟨l, hl, -⟩ := h.select? (p := .delim) (by rw [hk]; decide)
    have hremaining := h.remaining
    rw [hvalue, hs] at hremaining
    rw [hremaining] at hl
    by_contra hline
    -- with this character behind it the backslash would start an identifier
    have hident : Decided ('\\' :: c :: s) (some .identLike) :=
      .ident (.name (.escape s (mt (isNewline_iff c).mpr hline))) (fun h => absurd h.letterU (by decide))
        (fun h => absurd h.letterU (by decide))
    have hselected := Production.select?_of_decided hident
    rw [List.singleton_append] at hl
    rw [hl] at hselected
    cases hselected

theorem Step.closed_comment (h : Step r e next) (hk : e.token.kind = .comment) (hne : next.remaining ≠ []) :
    ∃ body : Text, e.token.value = "/*" ++ body ++ "*/" := by
  obtain ⟨l, hl, -, hvalue, hdrop⟩ := h.lexeme? .comment (by rw [hk]; decide)
  rw [hvalue]
  exact Lexeme.comment?_closed hl (hdrop ▸ hne)

/-! ## What a token starts with -/

theorem Step.identStarting (h : Step r e next)
    (hk : e.token.kind ∈ [Kind.ident, .function, .uri, .badUri, .unicodeRange]) : IdentStarting r.remaining := by
  obtain ⟨c, s, hs⟩ := List.exists_cons_of_ne_nil h.remaining_ne_nil
  have hurl (hk : e.token.kind ∈ Production.uri.kinds) : IdentStarting r.remaining := by
    have hopens := Production.uri_opens_iff.mp (h.opens .uri hk)
    rw [hs] at hopens ⊢
    exact identStarting_of_letterU hopens.letterU s
  simp only [List.mem_cons, List.not_mem_nil, or_false] at hk
  rcases hk with hk | hk | hk | hk | hk
  · obtain ⟨l, hl, hkind, -⟩ := h.lexeme? .identLike (by rw [hk]; decide)
    exact Lexeme.identLike?_starts hl (by rw [hkind, hk]; decide)
  · obtain ⟨l, hl, hkind, -⟩ := h.lexeme? .identLike (by rw [hk]; decide)
    exact Lexeme.identLike?_starts hl (by rw [hkind, hk]; decide)
  · exact hurl (by rw [hk]; decide)
  · exact hurl (by rw [hk]; decide)
  · have hopens := Production.unicodeRange_opens_iff.mp (h.opens .unicodeRange (by rw [hk]; decide))
    rw [hs] at hopens ⊢
    exact identStarting_of_letterU hopens.letterU s

theorem Step.head?_of_cdc (h : Step r e next) (hk : e.token.kind = .cdc) : r.remaining.head? = some '-' := by
  obtain ⟨l, hl, hkind, -⟩ := h.lexeme? .embedding (by rw [hk]; decide)
  rw [hk] at hkind
  simp only [Production.lexeme?] at hl
  unfold Lexeme.embedding? at hl
  split at hl
  · cases hl
    cases hkind
  · rename_i heq
    rw [heq]
    rfl
  · cases hl

theorem Step.numberOpens (h : Step r e next) (hk : e.token.kind ∈ [Kind.number, .percentage, .dimension]) :
    r.remaining.head?.any isDigit = true ∨ fractionOpens r.remaining = true :=
  (Bool.or_eq_true _ _).mp (h.opens .numeric hk)

/-- Behind other tokens, white space is read wherever it stands. -/
theorem Step.kind_of_newline (h : Step r e next) (hmark : ¬ r.AtMark) {c : Char} {s : Text} (hs : r.remaining = c :: s)
    (hc : isNewline c = true) : e.token.kind = .space := by
  have hline : c ∈ ['\n', '\r', '\x0c'] := (isNewline_iff c).mp hc
  have hselected := Production.select?_of_decided
    (.whitespace s (List.mem_cons_of_mem _ (List.mem_cons_of_mem _ hline)))
  rw [← hs, Option.map_eq_some_iff] at hselected
  obtain ⟨⟨p, l⟩, hsel, rfl⟩ := hselected
  have hkind := h.kind
  rw [rule_of_not_atMark hmark, hsel] at hkind
  rw [hkind]
  exact List.mem_singleton.mp (Production.lexeme?_kind (Production.select?_lexeme? hsel))

theorem head?_of_fractionOpens {s : Text} (h : fractionOpens s = true) : s.head? = some '.' := by
  unfold fractionOpens at h
  split at h
  · rfl
  · cases h

end Reader

/-! ## Neighbours -/

/-- What never stands directly behind what, `u` being behind `t`: nothing that would have gone on the token before. -/
structure Apart (t u : Token) : Prop where
  space : t.kind = .space → u.kind ≠ .space
  name : t.kind ∈ [Kind.ident, .atKeyword, .hash, .dimension] →
    (∀ c ∈ u.value.head?, ¬ (c.isAlpha = true ∨ c.isDigit = true ∨ c = '_' ∨ c = '-' ∨ 0x80 ≤ c.toNat)) ∧
    ¬ (u.kind ∈ [Kind.ident, .function] ∧ u.value.head? = some '\\') ∧
    u.kind ∉ [Kind.ident, .function, .uri, .badUri, .unicodeRange, .cdc] ∧
    (u.kind ∈ [Kind.number, .percentage, .dimension] → u.value.head? = some '.')
  call : t.kind = .ident → ¬ (u.kind = .delim ∧ u.value = ['('])
  number : t.kind = .number →
    u.kind ∉ [Kind.ident, .function, .uri, .badUri, .unicodeRange] ∧
    ¬ (u.kind = .delim ∧ u.value = ['%']) ∧
    ∀ c ∈ u.value.head?, u.kind ∈ [Kind.number, .percentage, .dimension] →
      c.isDigit = false ∧ ('.' ∉ t.value → c ≠ '.')
  cut : t.kind = .badString ∨ (t.kind = .delim ∧ t.value = ['\\']) →
    u.kind = .space ∧ ∃ c ∈ ['\n', '\r', '\x0c'], u.value.head? = some c
  comment : t.kind = .comment → ∃ body : Text, t.value = "/*" ++ body ++ "*/"
  byteOrderMark : u.kind ≠ .byteOrderMark

namespace Reader

variable {r next last : Reader} {e e' : Entry}

theorem Step.apart_name (h : Step next e' last) (hstop : ¬ ItemStarting ContinuesName next.remaining) :
    (∀ c ∈ e'.token.value.head?,
      ¬ (c.isAlpha = true ∨ c.isDigit = true ∨ c = '_' ∨ c = '-' ∨ 0x80 ≤ c.toNat)) ∧
    ¬ (e'.token.kind ∈ [Kind.ident, .function] ∧ e'.token.value.head? = some '\\') ∧
    e'.token.kind ∉ [Kind.ident, .function, .uri, .badUri, .unicodeRange, .cdc] ∧
    (e'.token.kind ∈ [Kind.number, .percentage, .dimension] → e'.token.value.head? = some '.') := by
  have hident (hk : e'.token.kind ∈ [Kind.ident, .function, .uri, .badUri, .unicodeRange]) : False :=
    hstop (h.identStarting hk).item
  have hchar : ∀ c ∈ next.remaining.head?, ¬ ContinuesName c := by
    intro c hc hname
    obtain ⟨s, hs⟩ := List.head?_eq_some_iff.mp hc
    exact hstop (hs ▸ .char s hname)
  rw [h.head?]
  refine ⟨?_, ?_, ?_, ?_⟩
  · intro c hc hname
    refine hchar c hc ?_
    unfold ContinuesName StartsName
    tauto
  · rintro ⟨hk, -⟩
    exact hident (by simp only [List.mem_cons, List.not_mem_nil, or_false] at hk ⊢; tauto)
  · intro hk
    by_cases hcdc : e'.token.kind = .cdc
    · exact hchar '-' (h.head?_of_cdc hcdc) (.inr (.inr rfl))
    · exact hident (by simp only [List.mem_cons, List.not_mem_nil, or_false] at hk ⊢; tauto)
  · intro hk
    rcases h.numberOpens hk with hdigit | hfraction
    · obtain ⟨c, hc, hdigit⟩ := (Option.any_eq_true _ _).mp hdigit
      exact absurd (.inr (.inl hdigit)) (hchar c hc)
    · exact head?_of_fractionOpens hfraction

theorem Step.apart_number (h : Step next e' last) {number : Text} (hpercent : next.remaining.head? ≠ some '%')
    (hunit : ¬ IdentStarting next.remaining) (hdigit : next.remaining.head?.any isDigit = false)
    (hfraction : '.' ∉ number → fractionOpens next.remaining = false) :
    e'.token.kind ∉ [Kind.ident, .function, .uri, .badUri, .unicodeRange] ∧
    ¬ (e'.token.kind = .delim ∧ e'.token.value = ['%']) ∧
    ∀ c ∈ e'.token.value.head?, e'.token.kind ∈ [Kind.number, .percentage, .dimension] →
      c.isDigit = false ∧ ('.' ∉ number → c ≠ '.') := by
  refine ⟨fun hk => hunit (h.identStarting hk), ?_, ?_⟩
  · rintro ⟨-, hvalue⟩
    rw [← h.head?, hvalue] at hpercent
    exact hpercent rfl
  · intro c hc hk
    rw [h.head?] at hc
    refine ⟨?_, ?_⟩
    · rw [Option.mem_def.mp hc] at hdigit
      exact hdigit
    · rintro hdot rfl
      rcases h.numberOpens hk with hd | hf
      · rw [hdigit] at hd
        cases hd
      · rw [hfraction hdot] at hf
        cases hf

theorem Step.apart_cut (h : Step next e' last) (hmark : ¬ next.AtMark)
    (hline : ∀ {c : Char} {s : Text}, next.remaining = c :: s → isNewline c = true) :
    e'.token.kind = .space ∧ ∃ c ∈ ['\n', '\r', '\x0c'], e'.token.value.head? = some c := by
  obtain ⟨c, s, hs⟩ := List.exists_cons_of_ne_nil h.remaining_ne_nil
  refine ⟨h.kind_of_newline hmark hs (hline hs), c, (isNewline_iff c).mp (hline hs), ?_⟩
  rw [h.head?, hs]
  rfl

theorem Step.apart_space (h : Step next e' last) (hstop : next.remaining.head?.any isWhitespace = false) :
    e'.token.kind ≠ .space := by
  intro hk
  have hopens : next.remaining.head?.any isWhitespace = true := h.opens .whitespace (by rw [hk]; decide)
  rw [hstop] at hopens
  cases hopens

theorem Step.kind_ne_byteOrderMark (h : Step r e next) (hmark : ¬ r.AtMark) : e.token.kind ≠ .byteOrderMark := by
  rw [h.kind, rule_of_not_atMark hmark]
  cases hsel : Production.select? r.remaining with
  | none => decide
  | some found =>
    intro hk
    exact found.1.byteOrderMark_notMem_kinds (hk ▸ Production.lexeme?_kind (Production.select?_lexeme? hsel))

/-- Two tokens that are read one after the other are apart. -/
theorem Step.apart (h : Step r e next) (h' : Step next e' last) : Apart e.token e'.token where
  space hk := h'.apart_space (h.stops_space hk)
  name hk := h'.apart_name (h.stops_name hk)
  call hk := by
    rintro ⟨-, hvalue⟩
    refine h.stops_ident hk ?_
    rw [← h'.head?, hvalue]
    rfl
  number hk := by
    obtain ⟨hpercent, hunit, hdigit, hfraction⟩ := h.stops_number hk
    exact h'.apart_number hpercent hunit hdigit hfraction
  cut hk := h'.apart_cut h.not_atMark (h.stops_cut hk)
  comment hk := h.closed_comment hk h'.remaining_ne_nil
  byteOrderMark := h'.kind_ne_byteOrderMark h.not_atMark

/-- Along the tokens of a reader, each is apart from the one behind it. -/
theorem entries_isChain (r : Reader) : (r.entries.map Entry.token).IsChain Apart := by
  induction r using read_induction with
  | done r he =>
    rw [entries_of_none he]
    exact .nil
  | read r e next he ih =>
    rw [entries_of_some he, List.map_cons]
    cases he' : next.entry? with
    | none =>
      rw [entries_of_none he']
      exact .singleton _
    | some found =>
      obtain ⟨e', last⟩ := found
      rw [entries_of_some he', List.map_cons] at ih ⊢
      exact .cons_cons ((entry?_step he).apart (entry?_step he')) ih

end Reader

/-- A comment that the end of the text cuts off. -/
def Token.IsOpenComment (t : Token) : Prop := t.kind = .comment ∧ ∀ body : Text, t.value ≠ "/*" ++ body ++ "*/"

/-- Neighbours in a text are apart; so a comment left open can only be the last token, and a byte order mark only the
first. -/
theorem tokens_apart (s : Text) :
    (tokenize s).IsChain Apart ∧
    (∀ before t behind, tokenize s = before ++ t :: behind → t.IsOpenComment → behind = []) ∧
    (∀ before t behind, tokenize s = before ++ t :: behind → t.kind = .byteOrderMark → before = []) := by
  have hchain : (tokenize s).IsChain Apart := (Reader.ofText s).entries_isChain
  have hapart := List.isChain_iff_forall_rel_of_append_cons_cons.mp hchain
  refine ⟨hchain, ?_, ?_⟩
  · rintro before t behind hs ⟨hk, hopen⟩
    cases behind with
    | nil => rfl
    | cons u behind =>
      obtain ⟨body, hbody⟩ := (hapart hs).comment hk
      exact absurd hbody (hopen body)
  · intro before t behind hs hk
    induction before using List.reverseRecOn with
    | nil => rfl
    | append_singleton before u _ =>
      rw [List.append_assoc, List.singleton_append] at hs
      exact absurd hk (hapart hs).byteOrderMark

end CssLexer
