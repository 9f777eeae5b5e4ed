/-
  CssLexer.Proofs.Grammar.Url — urls are those of the grammar, closed or left open.

  A url is read in parts, each of them in one go: the opening, blanks, a string or plain characters and escapes, blanks
  again, and the parenthesis. The grammar is free where one part ends and the next begins: blanks before an empty body
  may stand behind it, and a blank behind the digits of an escape may belong to either. Wherever a reading of the
  grammar gets to with its blanks, the lexer gets as far, and before a parenthesis both stand at the same place.

  Proved:
  - `plainUrl_body`: behind a body and blanks, the lexer goes on from there as from a body or from blanks.
  - `closable_of_mem`: wherever a reading gets to, the lexer gets as far, and to the same end if a parenthesis follows.
  - `uri?_sound`: what is found is a url, or as much of one as there is.
  - `uris_exact`: so a text has the lexeme of a url, or of one left open, exactly where the grammar says so, and a url
    is one token with everything in it.
-/

import CssLexer.Proofs.Grammar.Quotation
import Mathlib.Order.ConditionallyCompleteLattice.Basic

namespace CssLexer

/-! ## Forms of a url -/

namespace Grammar

/-- A url up to the end of its body. -/
def uriBody : Language Char := urlOpening * blanks * (string '"' + string '\'' + urlBody)

/-- A url up to where nothing closes the string in it. -/
def uriCut : Language Char := urlOpening * blanks * (unclosed '"' + unclosed '\'')

/-- A url that nothing closes, as far as its form goes in the text `s`: a backslash behind the items of a string that
nothing closes has to be the last character there. -/
def openUri (s : Text) : Language Char := uriBody * blanks + uriCut + (uriCut * exactly ['\\'] ⊓ exactly s)

end Grammar

namespace Lexeme

open Grammar

/-! ## Openings and blanks -/

variable {n : Nat} {b o s t u v w : Text}

theorem afterUrlOpening?_of_mem (ho : o ∈ urlOpening) (t : Text) :
    afterUrlOpening? (o ++ t) = some t ∧ o.length = 4 := by
  obtain ⟨_, ⟨_, ⟨_, ⟨a, ha, rfl⟩, _, ⟨b, hb, rfl⟩, rfl⟩, _, ⟨c, hc, rfl⟩, rfl⟩, _, rfl, rfl⟩ := ho
  simp [afterUrlOpening?, ha, hb, hc]

theorem take_four_mem {rest : Text} (h : afterUrlOpening? s = some rest) : s.take 4 ∈ urlOpening := by
  unfold afterUrlOpening? at h
  split at h
  · rename_i a b c r
    split at h
    · rename_i hall
      simp only [Bool.and_eq_true] at hall
      obtain ⟨⟨ha, hb⟩, hc⟩ := hall
      exact Language.append_mem_mul (Language.append_mem_mul (Language.append_mem_mul (singleton_mem_one.mpr ha)
        (singleton_mem_one.mpr hb)) (singleton_mem_one.mpr hc)) (mem_exactly.mpr rfl)
    · cases h
  · cases h

theorem mem_blanks : w ∈ blanks ↔ ∀ c ∈ w, isWhitespace c = true := mem_star_one

theorem take_blanks_mem (s : Text) : s.take (countWhile isWhitespace s) ∈ blanks :=
  mem_blanks.mpr fun _ => of_mem_take_countWhile

theorem countWhile_blanks (hw : w ∈ blanks) (t : Text) :
    countWhile isWhitespace (w ++ t) = w.length + countWhile isWhitespace t :=
  countWhile_append_of_all (mem_blanks.mp hw) t

theorem uri?_of_opening (ho : o ∈ urlOpening) (hw : w ∈ blanks) (t : Text) :
    uri? (o ++ (w ++ t)) = some (urlOfBody ((o ++ w).length + countWhile isWhitespace t)
      (t.drop (countWhile isWhitespace t))) := by
  obtain ⟨hopening, hfour⟩ := afterUrlOpening?_of_mem ho (w ++ t)
  rw [uri?_eq, hopening, Option.map_some, countWhile_blanks hw, List.drop_length_add_append, List.length_append, hfour,
    Nat.add_assoc]

theorem closeUrl_blanks (hw : w ∈ blanks) (t : Text) : closeUrl n (w ++ t) = closeUrl (n + w.length) t := by
  rw [closeUrl_eq, closeUrl_eq, countWhile_blanks hw, List.drop_length_add_append]
  simp only [Nat.add_assoc]

theorem closeUrl_paren (n : Nat) (t : Text) : closeUrl n (')' :: t) = ⟨.uri, n + 1⟩ := rfl

theorem mem_quoted_iff {f : Char → Language Char} :
    v ∈ f '"' + f '\'' ↔ ∃ quote, isQuote quote = true ∧ v ∈ f quote := by
  constructor
  · rintro (hv | hv)
    · exact ⟨'"', by decide, hv⟩
    · exact ⟨'\'', by decide, hv⟩
  · rintro ⟨quote, hq, hv⟩
    rcases (isQuote_iff quote).mp hq with rfl | rfl
    · exact .inl hv
    · exact .inr hv

/-! ## Bodies without quotation marks -/

/-- The url of `n` characters before `s`, completed by plain characters and escapes, blanks and the parenthesis. -/
def plainUrl (n : Nat) (s : Text) : Lexeme :=
  closeUrl (n + runLength (charOrEscape isUrlChar) s) (s.drop (runLength (charOrEscape isUrlChar) s))

theorem greedy_urlItem : Greedy (charOrEscape isUrlChar) (one isUrlChar + escape) 0 := greedy_charOrEscape (by decide)

theorem le_length_plainUrl (n : Nat) (s : Text) : n ≤ (plainUrl n s).length :=
  Nat.le_trans (Nat.le_add_right n _) (le_length_closeUrl _ _)

theorem plainUrl_of_none {c : Char} (h : charOrEscape isUrlChar c t = none) :
    plainUrl n (c :: t) = closeUrl n (c :: t) := by rw [plainUrl, runLength_cons_of_none h]; rfl

theorem charOrEscape_of_isWhitespace {c : Char} (h : isWhitespace c = true) (t : Text) :
    charOrEscape isUrlChar c t = none := by
  simp only [isWhitespace, Bool.or_eq_true, beq_iff_eq] at h
  rcases h with (((rfl | rfl) | rfl) | rfl) | rfl <;> rfl

theorem plainUrl_append (hu : u ∈ urlBody) (t : Text) :
    ∃ z q, t = z ++ q ∧ Trails z ∧ plainUrl n (u ++ t) = plainUrl (n + u.length + z.length) q := by
  obtain ⟨z, q, rfl, hz, hrun⟩ := greedy_urlItem.run hu t
  refine ⟨z, q, rfl, hz, ?_⟩
  have hdrop (m : Nat) : (u ++ (z ++ q)).drop (u.length + z.length + m) = q.drop m := by
    rw [Nat.add_assoc, List.drop_length_add_append, List.drop_length_add_append]
  rw [plainUrl, plainUrl, hrun, hdrop]
  congr 1
  omega

/-- Behind a body and blanks, the lexer goes on from there as from a body, trailing characters apart, or as from
blanks. -/
theorem plainUrl_body (hu : u ∈ urlBody) (hb : b ∈ blanks) (t : Text) :
    (∃ z q, t = z ++ q ∧ Trails z ∧
      plainUrl n (u ++ (b ++ t)) = plainUrl (n + u.length + b.length + z.length) q) ∨
    plainUrl n (u ++ (b ++ t)) = closeUrl (n + u.length + b.length) t := by
  obtain ⟨z, q, heq, hz, hplain⟩ := plainUrl_append (n := n) hu (b ++ t)
  rcases List.append_eq_append_iff.mp heq with ⟨y, rfl, rfl⟩ | ⟨y, rfl, rfl⟩
  · -- the last escape of the body has taken the blanks along
    refine .inl ⟨y, q, rfl, hz.of_append, hplain.trans ?_⟩
    rw [List.length_append, Nat.add_assoc (n + u.length)]
  · cases y with
    | nil =>
      rw [List.append_nil] at hplain ⊢
      exact .inl ⟨[], t, rfl, trails_nil, hplain⟩
    | cons c y =>
      right
      have hblanks : c :: y ∈ blanks := mem_blanks.mpr fun d hd => mem_blanks.mp hb d (List.mem_append_right z hd)
      have hc : isWhitespace c = true := mem_blanks.mp hblanks c List.mem_cons_self
      rw [hplain, List.cons_append, plainUrl_of_none (charOrEscape_of_isWhitespace hc _), ← List.cons_append,
        closeUrl_blanks hblanks, List.length_append, Nat.add_assoc (n + u.length)]

theorem le_length_plainUrl_body (hu : u ∈ urlBody) (hb : b ∈ blanks) (t : Text) :
    n + u.length + b.length ≤ (plainUrl n (u ++ (b ++ t))).length := by
  rcases plainUrl_body hu hb t with ⟨z, q, -, -, hplain⟩ | hplain
  · have := le_length_plainUrl (n + u.length + b.length + z.length) q
    rw [hplain]
    omega
  · rw [hplain]
    exact le_length_closeUrl _ _

theorem plainUrl_body_closed (hu : u ∈ urlBody) (hb : b ∈ blanks) (t : Text) :
    plainUrl n (u ++ (b ++ ')' :: t)) = ⟨.uri, n + u.length + b.length + 1⟩ := by
  rcases plainUrl_body hu hb (')' :: t) with ⟨z, q, hzq, hz, hplain⟩ | hplain
  · obtain rfl := hz.eq_nil hzq (by decide) (by decide)
    obtain rfl : ')' :: t = q := hzq
    rw [hplain, plainUrl_of_none rfl, closeUrl_paren]
    rfl
  · rw [hplain, closeUrl_paren]

theorem charOrEscape_of_isQuote {c : Char} (h : isQuote c = true) (t : Text) : charOrEscape isUrlChar c t = none := by
  rcases (isQuote_iff c).mp h with rfl | rfl <;> rfl

theorem head_urlBody {c : Char} (hu : c :: u ∈ urlBody) : isWhitespace c = false ∧ isQuote c = false := by
  have hstarts : charOrEscape isUrlChar c u ≠ none := by
    intro hnone
    have hle := greedy_urlItem.le_run hu []
    rw [List.append_nil, runLength_cons_of_none hnone] at hle
    cases hle
  rw [← Bool.not_eq_true, ← Bool.not_eq_true]
  exact ⟨fun h => hstarts (charOrEscape_of_isWhitespace h u), fun h => hstarts (charOrEscape_of_isQuote h u)⟩

/-! ## What the grammar derives is found -/

/-- Wherever `v` is at the start of a text, a url is found there that is no shorter, and that ends with the parenthesis
if one follows. -/
structure Closable (v : Text) : Prop where
  reach (t : Text) : ∃ l, uri? (v ++ t) = some l ∧ v.length ≤ l.length
  closed (t : Text) : uri? (v ++ ')' :: t) = some ⟨.uri, v.length + 1⟩

theorem uri?_of_opening_cons (ho : o ∈ urlOpening) (hw : w ∈ blanks) {c : Char} (hc : isWhitespace c = false)
    (t : Text) : uri? (o ++ (w ++ c :: t)) = some (urlOfBody (o ++ w).length (c :: t)) := by
  have hnone : countWhile isWhitespace (c :: t) = 0 := by rw [countWhile_eq_zero_iff]; simpa using hc
  rw [uri?_of_opening ho hw, hnone]
  rfl

theorem urlOfBody_of_not_isQuote {c : Char} (hc : isQuote c = false) (t : Text) :
    urlOfBody n (c :: t) = plainUrl n (c :: t) := by
  refine urlOfBody_of_none ?_
  rw [← Option.not_isSome_iff_eq_none, isSome_quotation?]
  simpa using hc

/-- A string starts with its quotation mark, and so does whatever it is only a part of. -/
theorem uri?_of_quote {quote : Char} (hq : isQuote quote = true) (ho : o ∈ urlOpening) (hw : w ∈ blanks)
    {l : Language Char} (hv : v ∈ unclosed quote * l) (t : Text) :
    uri? (o ++ (w ++ (v ++ t))) = some (urlOfBody (o ++ w).length (v ++ t)) := by
  obtain ⟨_, ⟨_, rfl, x, -, rfl⟩, y, -, rfl⟩ := hv
  exact uri?_of_opening_cons ho hw (isWhitespace_of_isQuote hq) _

theorem closable_of_string {quote : Char} (hq : isQuote quote = true) (ho : o ∈ urlOpening) (hw : w ∈ blanks)
    (hv : v ∈ string quote) (hb : b ∈ blanks) : Closable (o ++ w ++ v ++ b) := by
  have hfound (t : Text) : uri? (o ++ w ++ v ++ b ++ t) = some (closeUrl (o ++ w ++ v ++ b).length t) := by
    simp only [List.append_assoc]
    rw [uri?_of_quote hq ho hw hv, urlOfBody_of_closed (quotation?_of_mem hq hv _), List.drop_left, closeUrl_blanks hb]
    simp only [List.length_append, Nat.add_assoc]
  exact ⟨fun t => ⟨_, hfound t, le_length_closeUrl _ _⟩, fun t => hfound (')' :: t)⟩

theorem closable_of_urlBody (ho : o ∈ urlOpening) (hw : w ∈ blanks) (hu : u ∈ urlBody) (hb : b ∈ blanks) :
    Closable (o ++ w ++ u ++ b) := by
  cases u with
  | nil =>
    -- the lexer takes all the blanks for those before the body
    have hblanks : w ++ b ∈ blanks := mem_blanks.mpr fun c hc =>
      (List.mem_append.mp hc).elim (mem_blanks.mp hw c) (mem_blanks.mp hb c)
    rw [List.append_nil, List.append_assoc]
    refine ⟨fun t => ⟨_, by rw [List.append_assoc]; exact uri?_of_opening ho hblanks t, ?_⟩, fun t => ?_⟩
    · have := le_length_urlOfBody ((o ++ (w ++ b)).length + countWhile isWhitespace t)
        (t.drop (countWhile isWhitespace t))
      omega
    · rw [List.append_assoc, uri?_of_opening_cons ho hblanks (by decide), urlOfBody_of_not_isQuote (by decide),
        plainUrl_of_none rfl, closeUrl_paren]
  | cons c u =>
    obtain ⟨hblank, hquote⟩ := head_urlBody hu
    have hfound (t : Text) :
        uri? (o ++ w ++ (c :: u) ++ b ++ t) = some (plainUrl (o ++ w).length (c :: u ++ (b ++ t))) := by
      simp only [List.append_assoc, List.cons_append]
      rw [uri?_of_opening_cons ho hw hblank, urlOfBody_of_not_isQuote hquote]
    have hlength : (o ++ w ++ (c :: u) ++ b).length = (o ++ w).length + (c :: u).length + b.length := by
      simp only [List.length_append]
    refine ⟨fun t => ⟨_, hfound t, ?_⟩, fun t => ?_⟩
    · rw [hlength]
      exact le_length_plainUrl_body hu hb t
    · rw [hfound, plainUrl_body_closed hu hb, hlength]

theorem closable_of_mem (hv : v ∈ uriBody * blanks) : Closable v := by
  obtain ⟨_, ⟨_, ⟨o, ho, w, hw, rfl⟩, x, hx, rfl⟩, b, hb, rfl⟩ := hv
  rcases hx with hx | hx
  · obtain ⟨quote, hq, hx⟩ := mem_quoted_iff.mp hx
    exact closable_of_string hq ho hw hx hb
  · exact closable_of_urlBody ho hw hx hb

/-- A url of the grammar is found as one, and no shorter and no longer than it is. -/
theorem uri?_of_mem (hv : v ∈ uri) (t : Text) : uri? (v ++ t) = some ⟨.uri, v.length⟩ := by
  obtain ⟨x, hx, _, rfl, rfl⟩ := hv
  have hclosed := (closable_of_mem hx).closed t
  simpa using hclosed

theorem uriCut_reach (hv : v ∈ uriCut * Grammar.optional (exactly ['\\'])) (t : Text) :
    ∃ l, uri? (v ++ t) = some l ∧ v.length ≤ l.length := by
  obtain ⟨_, ⟨_, ⟨o, ho, w, hw, rfl⟩, x, hx, rfl⟩, e, he, rfl⟩ := hv
  obtain ⟨quote, hq, hx⟩ := mem_quoted_iff.mp hx
  have hmem : x ++ e ∈ openString quote := Language.append_mem_mul hx he
  obtain ⟨k, closed, hfound, hk⟩ := openString_reach hq hmem t
  have hlength := le_length_urlOfBody (o ++ w).length (x ++ e ++ t)
  rw [hfound, Option.map_some, Option.getD_some] at hlength
  refine ⟨_, by simpa only [List.append_assoc] using uri?_of_quote hq ho hw hmem t, ?_⟩
  simp only [List.length_append, List.append_assoc] at hk hlength ⊢
  omega

theorem openUri_reach (hv : v ∈ openUri s) (t : Text) : ∃ l, uri? (v ++ t) = some l ∧ v.length ≤ l.length := by
  have hcut : uriCut * Grammar.optional (exactly ['\\']) = uriCut + uriCut * exactly ['\\'] := by
    rw [Grammar.optional, mul_add, mul_one]
  rcases hv with (hv | hv) | ⟨hv, -⟩
  · exact (closable_of_mem hv).reach t
  · exact uriCut_reach (hcut ▸ .inl hv) t
  · exact uriCut_reach (hcut ▸ .inr hv) t

/-! ## What is found is of the grammar -/

/-- The lexeme is that of a url of the grammar at the start of `s`, or of one left open there. -/
def OfUri (s : Text) (l : Lexeme) : Prop :=
  (l.kind = .uri ∧ s.take l.length ∈ uri) ∨ (l.kind = .badUri ∧ s.take l.length ∈ openUri s)

theorem closeUrl_sound (hv : v ∈ uriBody) (t : Text) : OfUri (v ++ t) (closeUrl v.length t) := by
  have hblanks := Language.append_mem_mul hv (take_blanks_mem t)
  rw [closeUrl_eq]
  split
  · rename_i hclosed
    obtain ⟨r, hr⟩ := List.head?_eq_some_iff.mp hclosed
    refine .inl ⟨rfl, ?_⟩
    simp only []
    rw [Nat.add_assoc, List.take_length_add_append, List.take_add, hr, ← List.append_assoc]
    exact Language.append_mem_mul hblanks (mem_exactly.mpr rfl)
  · refine .inr ⟨rfl, .inl (.inl ?_)⟩
    simp only []
    rwa [List.take_length_add_append]

theorem closeUrl_take_sound {k : Nat} (hk : k ≤ t.length) (hv : v ++ t.take k ∈ uriBody) :
    OfUri (v ++ t) (closeUrl (v.length + k) (t.drop k)) := by
  have hclose := closeUrl_sound hv (t.drop k)
  rwa [List.append_assoc, List.take_append_drop, List.length_append, List.length_take_of_le hk] at hclose

theorem urlOfBody_sound (hv : v ∈ urlOpening * blanks) (t : Text) : OfUri (v ++ t) (urlOfBody v.length t) := by
  cases hfound : quotation? t with
  | none =>
    rw [urlOfBody_of_none hfound]
    exact closeUrl_take_sound (runLength_le _ _)
      (Language.append_mem_mul hv (.inr (greedy_urlItem.take_run_mem (.inr rfl))))
  | some found =>
    obtain ⟨k, closed⟩ := found
    have hk := quotation?_le hfound
    cases t with
    | nil => cases hfound
    | cons quote r =>
      have hq : isQuote quote = true := by
        have hopens := isSome_quotation? (quote :: r)
        rw [hfound] at hopens
        exact hopens.symm
      cases closed with
      | true =>
        rw [urlOfBody_of_closed hfound]
        have hstring := mem_quoted_iff.mpr ⟨quote, hq, take_mem_of_closed hq hfound⟩
        exact closeUrl_take_sound hk (Language.append_mem_mul hv (.inl hstring))
      | false =>
        have hcut {x : Text} (hx : x ∈ unclosed quote) : v ++ x ∈ uriCut :=
          Language.append_mem_mul hv (mem_quoted_iff.mpr ⟨quote, hq, hx⟩)
        rw [urlOfBody_of_cut hfound]
        refine .inr ⟨rfl, ?_⟩
        simp only []
        rw [List.take_length_add_append]
        rcases take_mem_of_open hq hfound with hopen | ⟨hopen, hend⟩
        · exact .inl (.inr (hcut hopen))
        · -- the string ends in a backslash behind which there is nothing
          obtain ⟨x, hx, e, he, heq⟩ := Language.mem_mul.mp hopen
          rw [List.take_of_length_le (List.drop_eq_nil_iff.mp hend)] at heq ⊢
          refine .inr ⟨?_, mem_exactly.mpr rfl⟩
          rw [← heq, ← List.append_assoc]
          exact Language.append_mem_mul (hcut hx) he

/-- What is found is a url of the grammar, or one left open. -/
theorem uri?_sound {l : Lexeme} (h : uri? s = some l) : OfUri s l := by
  rw [uri?_eq, Option.map_eq_some_iff] at h
  obtain ⟨rest, hrest, rfl⟩ := h
  have ho := take_four_mem hrest
  have hfour := (afterUrlOpening?_of_mem ho []).2
  obtain ⟨rfl, -⟩ := afterUrlOpening?_passes hrest
  have hbody := urlOfBody_sound (Language.append_mem_mul ho (take_blanks_mem (s.drop 4)))
    ((s.drop 4).drop (countWhile isWhitespace (s.drop 4)))
  rwa [List.append_assoc, List.take_append_drop, List.take_append_drop, List.length_append, hfour,
    List.length_take_of_le (countWhile_le _ _)] at hbody

end Lexeme

/-! ## Urls -/

namespace Grammar

variable {s : Text}

theorem classifies_uri? : Classifies (Lexeme.uri? s) s .uri .badUri uri (openUri s) where
  ne := by decide
  sound h := ⟨Production.lexeme?_length_le (p := .uri) h, Lexeme.uri?_sound h⟩
  whole n hle hs := by
    have hfound := Lexeme.uri?_of_mem hs (s.drop n)
    rwa [List.take_append_drop, List.length_take_of_le hle] at hfound
  part n hle hs := by
    have hfound := Lexeme.openUri_reach hs (s.drop n)
    rwa [List.take_append_drop, List.length_take_of_le hle] at hfound

/-- A url of the grammar is read as one token, whatever is behind it. -/
theorem entry?_of_mem_uri {v : Text} (hv : v ∈ uri) (t : Text) (position : Position) :
    Reader.entry? ⟨v ++ t, position⟩ =
      some (⟨.production .uri, ⟨.uri, v, position.line, position.column⟩⟩, ⟨t, position.after v⟩) := by
  have hfound := Lexeme.uri?_of_mem hv t
  have hopens : Production.uri.opens (v ++ t) = true := by
    rw [← Production.isSome_lexeme?]
    exact Option.isSome_of_eq_some hfound
  have hrule : (⟨v ++ t, position⟩ : Reader).rule = (.production .uri, ⟨.uri, v.length⟩) := by
    rw [Reader.rule, if_neg]
    · rw [Production.select?_of_wins (Production.wins_of_opens hopens (by decide) (by simp)) hfound]
    · rintro ⟨-, hmark⟩
      obtain ⟨r, hr⟩ := List.head?_eq_some_iff.mp hmark
      rw [show v ++ t = '\uFEFF' :: r from hr] at hopens
      exact absurd (Production.mem_leading hopens (by decide)) (by decide)
  have hne : v ++ t ≠ [] := by
    intro hnil
    rw [hnil] at hopens
    cases hopens
  rw [Reader.entry?_of_ne_nil hne, hrule]
  simp only [List.take_left, List.drop_left]

end Grammar

/-- A text that starts with the opening of a url has the lexeme of a url, which is its one beginning in the grammar, or
where it has none, that of a url left open, which is as long as it can be; a text that starts otherwise has neither.
Whatever characters the body has, comment marks among them, the url is read as one token. -/
theorem uris_exact (s : Text) :
    (Lexeme.uri? s = none ↔ ¬ UrlStarting s) ∧
    (∀ n, Lexeme.uri? s = some ⟨.uri, n⟩ ↔ Grammar.IsOnly Grammar.uri s n) ∧
    (∀ n, Lexeme.uri? s = some ⟨.badUri, n⟩ ↔ Grammar.Unfinished Grammar.uri (Grammar.openUri s) s n) ∧
    (UrlStarting s →
      (∃ n, Grammar.IsOnly Grammar.uri s n) ∨ ∃ n, Grammar.Unfinished Grammar.uri (Grammar.openUri s) s n) ∧
    ∀ v ∈ Grammar.uri, ∀ t position, Reader.entry? ⟨v ++ t, position⟩ =
      some (⟨.production .uri, ⟨.uri, v, position.line, position.column⟩⟩, ⟨t, position.after v⟩) := by
  have hopens : (Lexeme.uri? s).isSome = true ↔ UrlStarting s := by
    rw [← Production.uri_opens_iff, ← Production.isSome_lexeme?]
    rfl
  refine ⟨by rw [← hopens, Option.not_isSome_iff_eq_none], fun n => Grammar.classifies_uri?.whole_iff,
    fun n => Grammar.classifies_uri?.part_iff, fun hs => Grammar.classifies_uri?.isOnly_or_unfinished (hopens.mpr hs),
    fun v hv => Grammar.entry?_of_mem_uri hv⟩

example : Lexeme.uri? "url(/*x*/pic.png)/*y*/" = some ⟨.uri, 17⟩ := by decide

end CssLexer
