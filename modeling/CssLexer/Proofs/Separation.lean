/-
  CssLexer.Proofs.Separation — a comment between two texts keeps their tokens apart.

  Put a slash behind a text. It is in no class of characters but that of urls, so what a production finds stays as it
  was, with two sorts of exceptions (`Exposed`). A comment, a string or a url that is still open at the end of the text
  takes the slash in. And an escape that lacks its character gets one: what such an escape leaves behind in the text is
  listed in `unfinished`, and the last token read from it is a lone backslash. All of these end a text with a token
  that is `LeftOpen`.

  Proved:
  - `runLength_slash`: a run is the same with a slash behind its text, or reaches the end, or stops for want of one.
  - `lexeme?_slash`: a production finds the same with a slash behind a text, unless the text leaves it exposed.
  - `rule_slash`, `entries_slash`: so a reader whose last token is not left open reads on as it did.
  - `tokenize_separated`: so behind such a text and a comment, the tokens are those of both, with the comment between.
-/

import CssLexer.Proofs.Decoding
import CssLexer.Proofs.PrefixStability
import CssLexer.Proofs.Standalone

namespace CssLexer

/-- A token that text behind it may go on: a string or a url that is cut off, a comment without its closing mark, a
backslash that starts no escape. -/
def Token.LeftOpen (t : Token) : Prop :=
  t.kind = .badString ∨ t.kind = .badUri ∨ (t.kind = .comment ∧ ¬ ['*', '/'] <:+: t.value.drop 2) ∨
    (t.kind = .delim ∧ t.value = ['\\'])

instance (t : Token) : Decidable t.LeftOpen := inferInstanceAs (Decidable (_ ∨ _ ∨ _ ∨ _))

/-! ## Counts -/

section Counts

variable (w : Text)

theorem countWhile_slash {p : Char → Bool} (hp : p '/' = false) (x : Text) :
    countWhile p (x ++ '/' :: w) = countWhile p x := by
  unfold countWhile
  rw [List.takeWhile_append, List.takeWhile_cons_of_neg (by simp [hp]), List.append_nil]
  split
  · rename_i hall
    rw [(List.takeWhile_prefix p).eq_of_length hall]
  · rfl

theorem countUpTo_slash {p : Char → Bool} (hp : p '/' = false) (n : Nat) (x : Text) :
    countUpTo n p (x ++ '/' :: w) = countUpTo n p x :=
  countUpTo_append (Or.inl (countUpTo_stop hp n x w))

theorem markedLength_slash {mark : Char} (hmark : mark ≠ '/') {count : Text → Nat}
    (hcount : ∀ x, count (x ++ '/' :: w) = count x) (x : Text) :
    markedLength mark count (x ++ '/' :: w) = markedLength mark count x := by
  cases x with
  | nil =>
    show (if '/' = mark then (if count w = 0 then 0 else 1 + count w) else 0) = 0
    rw [if_neg (Ne.symm hmark)]
  | cons c r => rw [List.cons_append, markedLength, markedLength, hcount]

theorem numberLength?_slash (x : Text) : numberLength? (x ++ '/' :: w) = numberLength? x := by
  have hdigits (x : Text) := countWhile_slash w (show isDigit '/' = false by decide) x
  have hle := countWhile_le isDigit x
  rw [numberLength?_eq, numberLength?_eq, hdigits, List.drop_append_of_le_length hle, fractionLength_eq,
    fractionLength_eq, markedLength_slash w (by decide) hdigits]

theorem upperBoundLength_slash (x : Text) : upperBoundLength (x ++ '/' :: w) = upperBoundLength x := by
  rw [upperBoundLength_eq, upperBoundLength_eq]
  exact markedLength_slash w (by decide) (countUpTo_slash w (by decide) 6) x

theorem escapeTail?_slash {x : Text} (hx : x ≠ []) : escapeTail? (x ++ '/' :: w) = escapeTail? x := by
  apply escapeTail?_append
  left
  have hreach := escapeReach_stop (show isHexDigit '/' = false by decide) (by decide) hx w
  cases h : escapeTail? (x ++ '/' :: w) with
  | none => exact Nat.zero_le _
  | some n => rwa [escapeReach_of_some h] at hreach

end Counts

/-! ## Runs -/

/-- An item that a slash changes only where it comes first behind the item's character. -/
def Item.Firm (item : Item) : Prop :=
  (∀ {c : Char} {r : Text} {k : Nat}, item c r = some k → k ≤ r.length) ∧
    ∀ (c : Char) (r w : Text), r ≠ [] → item c (r ++ '/' :: w) = item c r

/-- A run stays as it is with a slash behind its text, unless it reaches the end of the text and takes the slash in, or
stops before a last character that starts an item only with the slash. -/
theorem runLength_slash {item : Item} (hi : item.Firm) (w x : Text) :
    (x.drop (runLength item x) = [] ∧
      (item '/' w ≠ none ∨ ∃ c, item c [] ≠ none ∧ item c ('/' :: w) ≠ item c [])) ∨
    (∃ c, x.drop (runLength item x) = [c] ∧ item c [] = none ∧ item c ('/' :: w) ≠ none) ∨
    runLength item (x ++ '/' :: w) = runLength item x := by
  induction hn : x.length using Nat.strongRecOn generalizing x with
  | _ n ih =>
    cases x with
    | nil =>
      by_cases hslash : item '/' w = none
      · exact Or.inr (Or.inr (runLength_cons_of_none hslash))
      · exact Or.inl ⟨rfl, Or.inl hslash⟩
    | cons c r =>
      rw [List.length_cons] at hn
      by_cases hc : item c (r ++ '/' :: w) = item c r
      · -- the item at the front is the same, and the rest of the run is one of a shorter text
        cases hk : item c r with
        | none => exact Or.inr (Or.inr (by rw [List.cons_append, runLength_cons_of_none hk,
            runLength_cons_of_none (hc.trans hk)]))
        | some k =>
          have hle := hi.1 hk
          have hrest := ih (r.drop k).length (by rw [List.length_drop]; omega) (r.drop k) rfl
          rw [runLength_cons_of_some hk, Nat.min_eq_left hle, Nat.add_assoc, drop_one_add, ← List.drop_drop]
          refine hrest.imp id (Or.imp id ?_)
          intro h
          rw [List.cons_append, runLength_cons_of_some (hc.trans hk), List.drop_append_of_le_length hle, h,
            List.length_append]
          omega
      · -- the item changes, so the slash is the first it sees
        have hr : r = [] := by
          by_contra hr
          exact hc (hi.2 c r w hr)
        subst hr
        cases hk : item c [] with
        | none =>
          refine Or.inr (Or.inl ⟨c, ?_, hk, fun h => hc (h.trans hk.symm)⟩)
          rw [runLength_cons_of_none hk, List.drop_zero]
        | some k =>
          refine Or.inl ⟨?_, Or.inr ⟨c, by rw [hk]; exact Option.some_ne_none k, hc⟩⟩
          rw [runLength_cons_of_some hk, Nat.add_assoc, drop_one_add, List.drop_nil]

theorem firm_charOrEscape (p : Char → Bool) : (charOrEscape p).Firm := by
  refine ⟨charOrEscape_le, ?_⟩
  intro c r w hr
  unfold charOrEscape
  rw [escapeTail?_slash w hr]

theorem firm_quotedItem (quote : Char) : (quotedItem quote).Firm := by
  refine ⟨quotedItem_le, ?_⟩
  intro c r w hr
  rw [quotedItem_eq, quotedItem_eq,
    escapeReach_append (Or.inl (escapeReach_stop (by decide) (by decide) hr w))]

theorem firm_commentItem : commentItem.Firm := by
  constructor
  · intro c r k h
    unfold commentItem at h
    split at h <;> cases h
    exact Nat.zero_le _
  · intro c r w hr
    rw [commentItem, commentItem, List.head?_append_of_ne_nil _ hr]

/-- A character starts an item only with a slash behind it exactly if it is a backslash of no class. -/
theorem charOrEscape_nil {p : Char → Bool} {c : Char} {w : Text}
    (h : charOrEscape p c ('/' :: w) ≠ charOrEscape p c []) : c = '\\' ∧ charOrEscape p c [] = none := by
  unfold charOrEscape at h ⊢
  split at h
  · exact absurd rfl h
  · rename_i hp
    split at h
    · rename_i hb
      rw [if_neg hp, if_pos hb]
      exact ⟨beq_iff_eq.mp hb, rfl⟩
    · exact absurd rfl h

/-- A run of characters and escapes stays as it is, or reaches the end, or stops before a backslash that is the last
character; it takes the slash in only where this is in the class of the run. -/
theorem charRun_slash (p : Char → Bool) (w x : Text) :
    (x.drop (runLength (charOrEscape p) x) = [] ∧ p '/' = true) ∨
    x.drop (runLength (charOrEscape p) x) = ['\\'] ∨
    runLength (charOrEscape p) (x ++ '/' :: w) = runLength (charOrEscape p) x := by
  rcases runLength_slash (firm_charOrEscape p) w x with ⟨hend, h⟩ | ⟨c, hc, hnone, hslash⟩ | h
  · refine Or.inl ⟨hend, ?_⟩
    rcases h with h | ⟨c, hsome, hne⟩
    · by_contra hp
      exact h (by rw [charOrEscape, if_neg hp]; rfl)
    · exact absurd (charOrEscape_nil hne).2 hsome
  · have hb := charOrEscape_nil (p := p) (w := w) (by rw [hnone]; exact hslash)
    rw [hc, hb.1]
    exact Or.inr (Or.inl rfl)
  · exact Or.inr (Or.inr h)

/-! ## Names -/

/-- What an escape without its character leaves behind of a name: its backslash, or the dash before it as well. -/
def unescaped : List Text := [['\\'], ['-', '\\']]

theorem nameLength_slash (w x : Text) :
    x.drop (nameLength x) = ['\\'] ∨ nameLength (x ++ '/' :: w) = nameLength x := by
  rcases charRun_slash isNameChar w x with ⟨-, h⟩ | h
  · exact absurd h (by decide)
  · exact h

theorem startedNameLength?_slash (w x : Text) :
    x.drop ((startedNameLength? x).getD 0) = ['\\'] ∨
    startedNameLength? (x ++ '/' :: w) = startedNameLength? x := by
  cases x with
  | nil => exact Or.inr rfl
  | cons c r =>
    rw [List.cons_append, startedNameLength?, startedNameLength?]
    by_cases hc : charOrEscape isNameStart c (r ++ '/' :: w) = charOrEscape isNameStart c r
    · rw [hc]
      cases hk : charOrEscape isNameStart c r with
      | none => exact Or.inr rfl
      | some k =>
        have hle := charOrEscape_le hk
        have hdrop (n : Nat) : (c :: r).drop (1 + k + n) = (r.drop k).drop n := by
          rw [Nat.add_assoc, drop_one_add, List.drop_drop]
        rw [Option.map_some, Option.map_some, Option.getD_some, List.drop_append_of_le_length hle, hdrop]
        refine (nameLength_slash w (r.drop k)).imp id ?_
        intro h
        rw [h]
    · have hr : r = [] := by
        by_contra hr
        exact hc ((firm_charOrEscape isNameStart).2 c r w hr)
      subst hr
      obtain ⟨rfl, hnone⟩ := charOrEscape_nil hc
      rw [hnone]
      exact Or.inl rfl

theorem identLength?_slash (w x : Text) :
    x.drop ((identLength? x).getD 0) ∈ unescaped ∨ identLength? (x ++ '/' :: w) = identLength? x := by
  cases x with
  | nil => exact Or.inr rfl
  | cons c r =>
    by_cases hc : c = '-'
    · subst hc
      rw [List.cons_append]
      simp only [identLength?]
      refine (startedNameLength?_slash w r).imp ?_ ?_
      · intro h
        cases hn : startedNameLength? r with
        | none =>
          rw [hn, Option.getD_none, List.drop_zero] at h
          rw [h]
          decide
        | some n =>
          rw [hn, Option.getD_some] at h
          rw [Option.map_some, Option.getD_some, drop_one_add, h]
          decide
      · intro h
        rw [h]
    · rw [List.cons_append, identLength?_cons_of_ne hc, identLength?_cons_of_ne hc, ← List.cons_append]
      refine (startedNameLength?_slash w (c :: r)).imp_left ?_
      intro h
      rw [h]
      decide

/-! ## Productions -/

/-- What an escape without its character leaves behind where it stands in the way of a token. -/
def unfinished : List Text := [['\\'], ['-', '\\'], ['#', '\\'], ['@', '\\'], ['@', '-', '\\']]

theorem mem_unfinished {x : Text} (h : x ∈ unescaped) : x ∈ unfinished := by
  revert x
  decide

theorem at_mem_unfinished {x : Text} (h : x ∈ unescaped) : '@' :: x ∈ unfinished := by
  revert x
  decide

/-- A slash behind `x` may change what production `p` finds: the lexeme is open and takes all of `x`, or what is behind
the lexeme is unfinished. -/
def Exposed (p : Production) (x : Text) : Prop :=
  (∃ l, p.lexeme? x = some l ∧ l.length = x.length ∧ (Token.mk l.kind x 1 1).LeftOpen) ∨
    x.drop (lengthOf (p.lexeme? x)) ∈ unfinished

namespace Lexeme

variable (w x : Text)

theorem commentBody_le (u v : Text) : runLength commentItem (u ++ '*' :: '/' :: v) ≤ u.length := by
  induction u with
  | nil => exact Nat.le_of_eq (runLength_cons_of_none rfl)
  | cons c u ih =>
    rw [List.cons_append, List.length_cons]
    by_cases hc : (c == '*' && (u ++ '*' :: '/' :: v).head? == some '/') = true
    · rw [runLength_cons_of_none (if_pos hc)]
      exact Nat.zero_le _
    · rw [commentBody_cons hc]
      omega

theorem comment?_slash {x : Text} (hx : x ≠ []) : Exposed .comment x ∨ comment? (x ++ '/' :: w) = comment? x := by
  match x, hx with
  | [c], _ =>
    right
    rw [List.cons_append, List.nil_append, comment?_of_not_opening (by simp)]
    simp [comment?]
  | c :: d :: r, _ =>
    by_cases hopening : c = '/' ∧ d = '*'
    · obtain ⟨rfl, rfl⟩ := hopening
      have hle := runLength_le commentItem r
      by_cases hend : r.drop (runLength commentItem r) = []
      · left
        left
        have hall := List.drop_eq_nil_iff.mp hend
        refine ⟨_, comment?_cons r, ?_, Or.inr (Or.inr (Or.inl ⟨rfl, ?_⟩))⟩
        · simp only [if_pos hend, List.length_cons]
          omega
        · intro hinfix
          obtain ⟨u, v, huv⟩ := hinfix
          have hlt := commentBody_le u v
          have hlength := congrArg List.length huv
          rw [List.append_assoc] at huv
          have hr : r = u ++ '*' :: '/' :: v := huv.symm
          rw [← hr] at hlt
          simp only [hr, List.length_append, List.length_cons] at hall hlt
          omega
      · right
        have hbody : runLength commentItem (r ++ '/' :: w) = runLength commentItem r := by
          rcases runLength_slash firm_commentItem w r with ⟨h, -⟩ | ⟨c, hc, hnone, -⟩ | h
          · exact absurd h hend
          · exact absurd hnone (by simp [commentItem])
          · exact h
        have hend' : (r ++ '/' :: w).drop (runLength commentItem r) ≠ [] := by
          rw [List.drop_append_of_le_length hle]
          exact List.append_ne_nil_of_left_ne_nil hend _
        rw [List.cons_append, List.cons_append, comment?_cons, comment?_cons, hbody, if_neg hend, if_neg hend']
    · right
      rw [List.cons_append, List.cons_append, comment?_of_not_opening hopening, comment?_of_not_opening hopening]

theorem space?_slash (x : Text) : space? (x ++ '/' :: w) = space? x := by
  unfold space?
  rw [countWhile_slash w (by decide)]

theorem quotation?_slash (x : Text) :
    quotation? x = some (x.length, false) ∨ quotation? (x ++ '/' :: w) = quotation? x := by
  cases x with
  | nil => exact Or.inr rfl
  | cons quote r =>
    by_cases hq : isQuote quote = true
    · rw [List.cons_append, quotation?_cons hq, quotation?_cons hq]
      have hle := runLength_le (quotedItem quote) r
      by_cases hend : r.drop (runLength (quotedItem quote) r) = []
      · left
        have hall := List.drop_eq_nil_iff.mp hend
        rw [hend, if_neg (by simp), List.length_cons]
        simp only [Option.some.injEq, Prod.mk.injEq, and_true]
        omega
      · right
        have hbody : runLength (quotedItem quote) (r ++ '/' :: w) = runLength (quotedItem quote) r := by
          rcases runLength_slash (firm_quotedItem quote) w r with ⟨h, -⟩ | ⟨c, -, hnone, hslash⟩ | h
          · exact absurd h hend
          · -- a backslash takes along what there is, even nothing
            rw [quotedItem_eq] at hnone hslash
            split at hnone
            · rename_i hc
              exact absurd (if_pos hc) hslash
            · rename_i hc
              rw [if_neg hc] at hslash
              split at hnone
              · cases hnone
              · rename_i hb
                rw [if_neg hb, hnone] at hslash
                exact absurd rfl hslash
          · exact h
        rw [hbody, List.drop_append_of_le_length hle, List.head?_append_of_ne_nil _ hend]
    · right
      rw [List.cons_append, quotation?, quotation?, if_neg hq, if_neg hq]

theorem string?_slash (x : Text) : Exposed .string x ∨ string? (x ++ '/' :: w) = string? x := by
  unfold string?
  rcases quotation?_slash w x with h | h
  · left
    left
    refine ⟨⟨.badString, x.length⟩, ?_, rfl, Or.inl rfl⟩
    show string? x = _
    rw [string?, h]
    rfl
  · right
    rw [h]

theorem closeUrl_slash (n : Nat) (x : Text) : closeUrl n (x ++ '/' :: w) = closeUrl n x := by
  have hle := countWhile_le isWhitespace x
  rw [closeUrl_eq, closeUrl_eq, countWhile_slash w (by decide), List.drop_append_of_le_length hle]
  by_cases hend : x.drop (countWhile isWhitespace x) = []
  · rw [hend, if_neg (by simp), if_neg (by simp)]
  · rw [List.head?_append_of_ne_nil _ hend]

/-- The slash may belong to a url that is open at the end, never to its opening. -/
theorem urlOfBody_slash (n : Nat) (body : Text) :
    urlOfBody n body = ⟨.badUri, n + body.length⟩ ∨
    (∃ k, urlOfBody n body = ⟨.badUri, n + k⟩ ∧ body.drop k = ['\\']) ∨
    urlOfBody n (body ++ '/' :: w) = urlOfBody n body := by
  rcases quotation?_slash w body with h | h
  · exact Or.inl (urlOfBody_of_cut h)
  · cases hq : quotation? body with
    | some found =>
      obtain ⟨k, closed⟩ := found
      right
      right
      cases closed with
      | false => rw [urlOfBody_of_cut hq, urlOfBody_of_cut (h.trans hq)]
      | true =>
        rw [urlOfBody_of_closed hq, urlOfBody_of_closed (h.trans hq),
          List.drop_append_of_le_length (quotation?_le hq), closeUrl_slash]
    | none =>
      rw [urlOfBody_of_none hq, urlOfBody_of_none (h.trans hq)]
      have hle := runLength_le (charOrEscape isUrlChar) body
      rcases charRun_slash isUrlChar w body with ⟨hend, -⟩ | hend | hrun
      · have hall := List.drop_eq_nil_iff.mp hend
        have hlength : runLength (charOrEscape isUrlChar) body = body.length := by omega
        left
        rw [hend, hlength]
        rfl
      · refine Or.inr (Or.inl ⟨_, ?_, hend⟩)
        rw [hend]
        rfl
      · right
        right
        rw [hrun, List.drop_append_of_le_length hle, closeUrl_slash]

theorem le_length_of_slash_notMem {x : Text} {n : Nat} (h : '/' ∉ (x ++ '/' :: w).take n) : n ≤ x.length := by
  by_contra hlt
  obtain ⟨k, hk⟩ : ∃ k, n - x.length = k + 1 := ⟨n - x.length - 1, by omega⟩
  rw [List.take_append, hk, List.take_succ_cons] at h
  exact h (List.mem_append_right _ List.mem_cons_self)

theorem slash_notMem_of_afterUrlOpening? {s rest : Text} (h : afterUrlOpening? s = some rest) : '/' ∉ s.take 4 := by
  unfold afterUrlOpening? at h
  split at h
  · split at h
    · rename_i hall
      simp only [Bool.and_eq_true] at hall
      intro hm
      simp only [List.take_succ_cons, List.take_zero, List.mem_cons, List.not_mem_nil, or_false, Char.reduceEq] at hm
      rcases hm with rfl | rfl | rfl
      · exact absurd hall.1.1 (by decide)
      · exact absurd hall.1.2 (by decide)
      · exact absurd hall.2 (by decide)
    · cases h
  · cases h

theorem afterUrlOpening?_slash (x : Text) :
    afterUrlOpening? (x ++ '/' :: w) = (afterUrlOpening? x).map (· ++ '/' :: w) := by
  by_cases hlen : 3 < x.length
  · exact afterUrlOpening?_append hlen
  · have hshort : afterUrlOpening? x = none := by
      by_contra hsome
      obtain ⟨rest, hrest⟩ := Option.ne_none_iff_exists'.mp hsome
      have := length_afterUrlOpening? hrest
      omega
    rw [hshort, Option.map_none]
    by_contra hsome
    obtain ⟨rest, hrest⟩ := Option.ne_none_iff_exists'.mp hsome
    have := le_length_of_slash_notMem w (slash_notMem_of_afterUrlOpening? hrest)
    omega

theorem uri?_slash (x : Text) : Exposed .uri x ∨ uri? (x ++ '/' :: w) = uri? x := by
  rw [uri?_eq, uri?_eq, afterUrlOpening?_slash]
  cases hr : afterUrlOpening? x with
  | none => exact Or.inr rfl
  | some rest =>
    have hle := countWhile_le isWhitespace rest
    have hlength := length_afterUrlOpening? hr
    have hurl : uri? x = some
        (urlOfBody (4 + countWhile isWhitespace rest) (rest.drop (countWhile isWhitespace rest))) := by
      rw [uri?_eq, hr, Option.map_some]
    simp only [Option.map_some, countWhile_slash w (show isWhitespace '/' = false by decide),
      List.drop_append_of_le_length hle]
    rcases urlOfBody_slash w (4 + countWhile isWhitespace rest) (rest.drop (countWhile isWhitespace rest)) with
      h | ⟨k, h, hk⟩ | h
    · refine Or.inl (Or.inl ⟨_, hurl, ?_, Or.inr (Or.inl (by rw [h]))⟩)
      rw [h, List.length_drop, hlength]
      simp only []
      omega
    · left
      right
      show x.drop (lengthOf (uri? x)) ∈ unfinished
      rw [hurl, h, lengthOf_some, ← List.drop_drop, ← List.drop_drop, (afterUrlOpening?_passes hr).1, hk]
      decide
    · exact Or.inr (congrArg some h)

theorem unicodeRange?_slash {x : Text} (hx : x ≠ []) : unicodeRange? (x ++ '/' :: w) = unicodeRange? x := by
  match x, hx with
  | [u], _ =>
    rw [List.cons_append, List.nil_append, unicodeRange?_of_not_opening (by simp)]
    rfl
  | u :: c :: r, _ =>
    by_cases hc : c = '+'
    · subst hc
      have hle := countUpTo_le 6 isHexDigit r
      simp only [List.cons_append, unicodeRange?, countUpTo_slash w (show isHexDigit '/' = false by decide),
        List.drop_append_of_le_length hle, countUpTo_slash w (p := (· == '?')) (by decide), upperBoundLength_slash]
    · have hopening : ¬ (c = '+' ∧ isLetterOf 'u' u = true) := fun h => hc h.1
      rw [List.cons_append, List.cons_append, unicodeRange?_of_not_opening hopening,
        unicodeRange?_of_not_opening hopening]

theorem embedding?_slash (x : Text) : embedding? (x ++ '/' :: w) = embedding? x := by
  apply Production.lexeme?_of_append (p := .embedding)
  show lengthOf (embedding? (x ++ '/' :: w)) ≤ x.length
  cases h : embedding? (x ++ '/' :: w) with
  | none => exact Nat.zero_le _
  | some l =>
    refine le_length_of_slash_notMem w ?_
    unfold embedding? at h
    split at h
    · rename_i heq
      cases h
      rw [heq]
      simp
    · rename_i heq
      cases h
      rw [heq]
      simp
    · cases h

theorem attributeOperator?_slash (x : Text) : attributeOperator? (x ++ '/' :: w) = attributeOperator? x := by
  apply Production.lexeme?_of_append (p := .attributeOperator)
  show lengthOf (attributeOperator? (x ++ '/' :: w)) ≤ x.length
  cases h : attributeOperator? (x ++ '/' :: w) with
  | none => exact Nat.zero_le _
  | some l =>
    refine le_length_of_slash_notMem w ?_
    unfold attributeOperator? at h
    split at h
    iterate 5
      rename_i heq
      cases h
      rw [heq]
      simp
    cases h

theorem length_numberWith_of_ne {n : Nat} {r : Text} (h : r.head? ≠ some '%') :
    (numberWith n r).length = n + (identLength? r).getD 0 := by
  rw [numberWith_of_ne h]
  cases identLength? r <;> rfl

theorem head?_slash_ne {x : Text} {c : Char} (hc : c ≠ '/') (h : x.head? ≠ some c) :
    (x ++ '/' :: w).head? ≠ some c := by
  cases x with
  | nil => simpa using Ne.symm hc
  | cons d r => exact h

theorem numeric?_slash (x : Text) : Exposed .numeric x ∨ numeric? (x ++ '/' :: w) = numeric? x := by
  cases hn : numberLength? x with
  | none => exact Or.inr (by rw [numeric?_eq, numeric?_eq, numberLength?_slash, hn]; rfl)
  | some n =>
    have hnumeric : numeric? x = some (numberWith n (x.drop n)) := by rw [numeric?_eq, hn, Option.map_some]
    have hslash : numeric? (x ++ '/' :: w) = some (numberWith n (x.drop n ++ '/' :: w)) := by
      rw [numeric?_eq, numberLength?_slash, hn, Option.map_some, List.drop_append_of_le_length (numberLength?_le hn)]
    rw [hnumeric, hslash]
    by_cases hpercent : (x.drop n).head? = some '%'
    · obtain ⟨r, hr⟩ := List.head?_eq_some_iff.mp hpercent
      rw [hr]
      exact Or.inr rfl
    · rcases identLength?_slash w (x.drop n) with h | h
      · left
        right
        show x.drop (lengthOf (numeric? x)) ∈ unfinished
        rw [hnumeric, lengthOf_some, length_numberWith_of_ne hpercent, ← List.drop_drop]
        exact mem_unfinished h
      · right
        rw [numberWith_of_ne hpercent, numberWith_of_ne (head?_slash_ne w (by decide) hpercent), h]

theorem hash?_slash (x : Text) : Exposed .hash x ∨ hash? (x ++ '/' :: w) = hash? x := by
  by_cases hx : x.head? = some '#'
  · obtain ⟨r, rfl⟩ := List.head?_eq_some_iff.mp hx
    rcases nameLength_slash w r with h | h
    · left
      right
      show ('#' :: r).drop (lengthOf (hash? ('#' :: r))) ∈ unfinished
      rw [hash?_cons]
      split
      · rename_i hzero
        rw [hzero, List.drop_zero] at h
        rw [h]
        decide
      · rw [lengthOf_some, drop_one_add, h]
        decide
    · right
      rw [List.cons_append, hash?_cons, hash?_cons, h]
  · right
    rw [hash?_eq_none hx, hash?_eq_none (head?_slash_ne w (by decide) hx)]

theorem identWith_slash (n : Nat) (x : Text) : identWith n (x ++ '/' :: w) = identWith n x := by
  by_cases h : x.head? = some '('
  · obtain ⟨r, rfl⟩ := List.head?_eq_some_iff.mp h
    rfl
  · rw [identWith_of_ne h, identWith_of_ne (head?_slash_ne w (by decide) h)]

theorem identLike?_slash (x : Text) : Exposed .identLike x ∨ identLike? (x ++ '/' :: w) = identLike? x := by
  cases x with
  | nil => exact Or.inr rfl
  | cons c r =>
    by_cases hc : c = '@'
    · subst hc
      rw [List.cons_append, identLike?_at, identLike?_at]
      rcases identLength?_slash w r with h | h
      · left
        right
        show ('@' :: r).drop (lengthOf (identLike? ('@' :: r))) ∈ unfinished
        rw [identLike?_at]
        cases hn : identLength? r with
        | none =>
          rw [hn, Option.getD_none, List.drop_zero] at h
          exact at_mem_unfinished h
        | some n =>
          rw [hn, Option.getD_some] at h
          rw [Option.map_some, lengthOf_some, drop_one_add]
          exact mem_unfinished h
      · exact Or.inr (by rw [h])
    · rw [List.cons_append, identLike?_of_ne hc, identLike?_of_ne hc, ← List.cons_append]
      rcases identLength?_slash w (c :: r) with h | h
      · left
        right
        show (c :: r).drop (lengthOf (identLike? (c :: r))) ∈ unfinished
        rw [identLike?_of_ne hc]
        cases hn : identLength? (c :: r) with
        | none =>
          rw [hn] at h
          exact mem_unfinished h
        | some n =>
          rw [hn, Option.getD_some] at h
          have hhead : ((c :: r).drop n).head? ≠ some '(' := by
            -- what an escape leaves behind of a name starts with its backslash or a dash
            intro hopening
            revert hopening h
            generalize (c :: r).drop n = y
            revert y
            decide
          rw [Option.map_some, lengthOf_some, identWith_of_ne hhead]
          exact mem_unfinished h
      · right
        rw [h]
        cases hn : identLength? (c :: r) with
        | none => rfl
        | some n =>
          rw [Option.map_some, Option.map_some, List.drop_append_of_le_length (identLength?_le hn), identWith_slash]

end Lexeme

/-- A production finds the same with a slash behind a text, unless the text leaves it exposed. -/
theorem Production.lexeme?_slash (p : Production) {x : Text} (hx : x ≠ []) (w : Text) :
    Exposed p x ∨ p.lexeme? (x ++ '/' :: w) = p.lexeme? x := by
  cases p with
  | comment => exact Lexeme.comment?_slash w hx
  | whitespace => exact Or.inr (Lexeme.space?_slash w x)
  | string => exact Lexeme.string?_slash w x
  | uri => exact Lexeme.uri?_slash w x
  | unicodeRange => exact Or.inr (Lexeme.unicodeRange?_slash w hx)
  | embedding => exact Or.inr (Lexeme.embedding?_slash w x)
  | attributeOperator => exact Or.inr (Lexeme.attributeOperator?_slash w x)
  | numeric => exact Lexeme.numeric?_slash w x
  | hash => exact Lexeme.hash?_slash w x
  | identLike => exact Lexeme.identLike?_slash w x
  | delim =>
    obtain ⟨c, r, rfl⟩ := List.exists_cons_of_ne_nil hx
    exact Or.inr rfl

theorem Production.select?_slash {x : Text} (hx : x ≠ []) (w : Text) :
    select? (x ++ '/' :: w) = select? x ∨ x ∈ unfinished ∨
    ∃ p l, select? x = some (p, l) ∧
      (l.length = x.length ∧ (Token.mk l.kind x 1 1).LeftOpen ∨ x.drop l.length ∈ unfinished) := by
  cases h : select? (x ++ '/' :: w) with
  | none => exact Or.inl (select?_eq_none_of_append h).symm
  | some found =>
    obtain ⟨p, l⟩ := found
    rcases lexeme?_slash p hx w with (⟨m, hm, hopen⟩ | hrest) | heq
    · exact Or.inr (Or.inr ⟨p, m, select?_of_lexeme? h hm, Or.inl hopen⟩)
    · cases hm : p.lexeme? x with
      | none =>
        rw [hm] at hrest
        exact Or.inr (Or.inl hrest)
      | some m =>
        rw [hm] at hrest
        exact Or.inr (Or.inr ⟨p, m, select?_of_lexeme? h hm, Or.inr hrest⟩)
    · exact Or.inl (select?_of_lexeme? h (heq ▸ select?_lexeme? h)).symm

/-! ## Readers -/

namespace Reader

variable {r next : Reader} {e : Entry}

/-- The last token that is still to be read is left open. -/
def OpenEnd (r : Reader) : Prop := ∃ e ∈ r.entries.getLast?, e.token.LeftOpen

theorem openEnd_of_next (he : r.entry? = some (e, next)) (h : next.OpenEnd) : r.OpenEnd := by
  obtain ⟨last, hlast, hopen⟩ := h
  refine ⟨last, ?_, hopen⟩
  rw [entries_of_some he]
  rw [Option.mem_def] at hlast ⊢
  rw [List.getLast?_cons, hlast, Option.getD_some]

theorem openEnd_of_last (he : r.entry? = some (e, next)) (hend : next.remaining = []) (h : e.token.LeftOpen) :
    r.OpenEnd := by
  refine ⟨e, ?_, h⟩
  rw [entries_of_some he, entries_of_none (entry?_eq_none_iff.mpr hend)]
  rfl

/-- Single characters are read one by one, up to the backslash at the end. -/
theorem openEnd_of_unfinished (h : r.remaining ∈ unfinished) : r.OpenEnd := by
  have hdelim : ∀ x ∈ unfinished, x ≠ [] ∧ x.head? ≠ some '\uFEFF' ∧
      Production.select? x = some (.delim, ⟨.delim, 1⟩) ∧ (x.drop 1 ∈ unfinished ∨ x = ['\\']) := by decide +kernel
  induction r using read_induction with
  | done r he => exact absurd (entry?_eq_none_iff.mp he) (hdelim _ h).1
  | read r e next he ih =>
    obtain ⟨hne, hhead, hselect, hrest⟩ := hdelim _ h
    have hrule : r.rule = (.production .delim, ⟨.delim, 1⟩) := by
      rw [rule_of_not_atMark fun hmark => hhead hmark.2, hselect]
    have hread := entry?_of_ne_nil hne
    rw [hrule, he] at hread
    cases hread
    rcases hrest with hrest | hlast
    · exact openEnd_of_next he (ih hrest)
    · refine openEnd_of_last he ?_ (Or.inr (Or.inr (Or.inr ⟨rfl, ?_⟩)))
      · simp only [hlast]
        rfl
      · simp only [hlast]
        rfl

theorem rule_slash (hr : r.remaining ≠ []) (w : Text) : (r.extend ('/' :: w)).rule = r.rule ∨ r.OpenEnd := by
  by_cases hmark : AtMark r
  · left
    rw [rule_of_atMark hmark, rule_of_atMark ((atMark_extend hr).mpr hmark)]
  have hread := entry?_of_ne_nil hr
  rcases Production.select?_slash hr w with h | h | ⟨p, l, hl, hopen⟩
  · left
    have hselect : Production.select? (r.extend ('/' :: w)).remaining = Production.select? r.remaining := h
    rw [rule_of_not_atMark hmark, rule_of_not_atMark (mt (atMark_extend hr).mp hmark), hselect]
  · exact Or.inr (openEnd_of_unfinished h)
  · right
    have hrule : r.rule = (.production p, l) := by rw [rule_of_not_atMark hmark, hl]
    rw [hrule] at hread
    rcases hopen with ⟨hlength, hopen⟩ | hrest
    · refine openEnd_of_last hread ?_ ?_
      · simp only [hlength, List.drop_length]
      · simp only [hlength, List.take_length]
        exact hopen
    · exact openEnd_of_next hread (openEnd_of_unfinished hrest)

/-- A slash behind a text whose last token is not left open changes nothing in the text. -/
theorem entries_slash (hopen : ¬ r.OpenEnd) (w : Text) :
    (r.extend ('/' :: w)).entries = r.entries ++ (r.finish.extend ('/' :: w)).entries := by
  induction r using read_induction with
  | done r he => rw [entries_of_none he, finish_of_remaining_eq_nil (entry?_eq_none_iff.mp he), List.nil_append]
  | read r e next he ih =>
    have hnext : ¬ next.OpenEnd := mt (openEnd_of_next he) hopen
    have hrule : (r.extend ('/' :: w)).rule = r.rule :=
      (rule_slash (remaining_ne_nil_of_some he) w).resolve_right hopen
    rw [entries_of_some he, entries_of_some (entry?_extend_of_rule he hrule), List.cons_append, ih hnext,
      (entry?_step he).finish]

end Reader

/-! ## Two texts -/

theorem Reader.entry?_of_emptyComment {r : Reader} {b : Text} (h : r.remaining = "/**/" ++ b) :
    r.entry? = some (⟨.production .comment, .comment, "/**/", r.position.line, r.position.column⟩,
      ⟨b, r.position.after "/**/"⟩) := by
  have hcons : r.remaining = '/' :: '*' :: '*' :: '/' :: b := h
  have hmark : ¬ AtMark r := by
    intro hmark
    have hhead := hmark.2
    rw [hcons] at hhead
    cases hhead
  have hbody : runLength commentItem ('*' :: '/' :: b) = 0 := runLength_cons_of_none rfl
  have hselect : Production.select? r.remaining = some (.comment, ⟨.comment, 4⟩) := by
    rw [hcons]
    simp [Production.select?, Production.all, Production.lexeme?, Lexeme.comment?_cons, hbody]
  have hrule : r.rule = (.production .comment, ⟨.comment, 4⟩) := by rw [rule_of_not_atMark hmark, hselect]
  rw [entry?_of_ne_nil (by rw [hcons]; exact List.cons_ne_nil _ _), hrule, hcons]
  rfl

/-- A comment is a universal separator. Put `/**/` between two texts, the second of which does not start with a byte
order mark. Unless the last token of the first is left open, the tokens are those of the first, the comment, and those
of the second, with each place counted from where the second starts. -/
theorem tokenize_separated {a b : Text} (hb : b.head? ≠ some '\uFEFF')
    (ha : ∀ t ∈ (tokenize a).getLast?, ¬ t.LeftOpen) :
    tokenize (a ++ "/**/" ++ b) =
      tokenize a ++ ⟨.comment, "/**/", (Position.behind a).line, (Position.behind a).column⟩ ::
        (tokenize b).map (Token.rebase (.behind (a ++ "/**/"))) := by
  have hopen : ¬ (Reader.ofText a).OpenEnd := by
    intro ⟨e, he, hopen⟩
    refine ha e.token ?_ hopen
    show e.token ∈ ((Reader.ofText a).entries.map Entry.token).getLast?
    rw [List.getLast?_map, Option.mem_def.mp he]
    rfl
  have hread := Reader.entries_slash hopen ("**/" ++ b)
  have hfinish : (Reader.ofText a).finish.extend ('/' :: ("**/" ++ b)) = ⟨"/**/" ++ b, .behind a⟩ := by
    show Reader.mk _ (Position.start.after a) = _
    rw [Position.start_after]
    rfl
  have hcomment := Reader.entry?_of_emptyComment (r := ⟨"/**/" ++ b, .behind a⟩) rfl
  have hafter : (Position.behind a).after "/**/" = .behind (a ++ "/**/") := Position.behind_after a "/**/"
  rw [hafter] at hcomment
  rw [hfinish, Reader.entries_of_some hcomment] at hread
  have hmark : ¬ (Reader.ofText b).AtMark := fun h => hb h.2
  have hoffset : 0 < (Position.behind (a ++ "/**/")).offset := by
    show 0 < (a ++ "/**/").byteLength
    rw [Text.byteLength_append]
    exact Nat.add_pos_right _ (by decide)
  have hrest := Reader.entries_rebase hoffset (r := Reader.ofText b) (q := []) rfl hmark
  have hbehind : (Reader.ofText b).rebase (.behind (a ++ "/**/")) = ⟨b, .behind (a ++ "/**/")⟩ := rfl
  rw [hbehind] at hrest
  have htokens := congrArg (List.map Entry.token) hread
  rw [hrest, List.map_append, List.map_cons, List.map_map] at htokens
  rw [List.append_assoc, tokenize_eq (s := b), List.map_map]
  exact htokens

/-- A first text in which one more character would change four tokens, and a second one of two lines. -/
theorem tokenize_separated_marks :
    (("b\n c" : String) : Text).head? ≠ some '\uFEFF' ∧
    (∀ t ∈ (tokenize "1- u+0- @- <!-").getLast?, ¬ t.LeftOpen) ∧
    tokenize ("1- u+0- @- <!-" ++ "/**/" ++ "b\n c") =
      tokenize "1- u+0- @- <!-" ++ ⟨.comment, "/**/", 1, 15⟩ ::
        [⟨.ident, "b", 1, 19⟩, ⟨.space, "\n ", 1, 20⟩, ⟨.ident, "c", 2, 2⟩] := by
  have hopen : ∀ t ∈ (tokenize "1- u+0- @- <!-").getLast?, ¬ t.LeftOpen := by decide +kernel
  refine ⟨by decide, hopen, ?_⟩
  rw [tokenize_separated (by decide) hopen]
  decide +kernel

end CssLexer
