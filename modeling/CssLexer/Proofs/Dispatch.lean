/-
  CssLexer.Proofs.Dispatch — which production a text falls to, read off its first four characters.

  `Decided` is the table of this dispatch. It knows nothing of the productions, of the order in which they are tried or
  of how far a lexeme reaches; the character classes in it are written out. Its lines exclude each other, and a text
  that no line is about falls to the single character.

  Proved:
  - `opens_of_decided`, `decided_of_opens`: a line of the table says when its production opens, and for identifiers
    also that neither a url nor a range of code points does.
  - `select?_of_decided`, `decided_of_select?`: what the table decides is selected, and whatever is selected, the single
    character apart, the table has decided.
  - `select?_iff_decided`: so the table with its default is the whole of the dispatch.
-/

import CssLexer.Proofs.Standalone
import CssLexer.Proofs.Warnings

namespace CssLexer

/-! ## The table -/

def lineEnds : List Char := ['\n', '\r', '\x0c']

def hexDigits : List Char := "0123456789abcdefABCDEF".toList

/-- A character that starts a name as it stands. -/
def StartsName (c : Char) : Prop := c.isAlpha = true ∨ c = '_' ∨ 0x80 ≤ c.toNat

instance (c : Char) : Decidable (StartsName c) := inferInstanceAs (Decidable (_ ∨ _ ∨ _))

/-- A character that goes on a name as it stands. -/
def ContinuesName (c : Char) : Prop := StartsName c ∨ c.isDigit = true ∨ c = '-'

instance (c : Char) : Decidable (ContinuesName c) := inferInstanceAs (Decidable (_ ∨ _ ∨ _))

/-- A text that starts with a character of class `P`, or with a backslash and a character that ends no line. -/
inductive ItemStarting (P : Char → Prop) : Text → Prop
  | char {c : Char} (r : Text) : P c → ItemStarting P (c :: r)
  | escape {c : Char} (r : Text) : c ∉ lineEnds → ItemStarting P ('\\' :: c :: r)

inductive IdentStarting : Text → Prop
  | name {s : Text} : ItemStarting StartsName s → IdentStarting s
  | dash {s : Text} : ItemStarting StartsName s → IdentStarting ('-' :: s)

/-- A text that starts with `url(` in any mixture of cases. -/
def UrlStarting (s : Text) : Prop := (s.take 4).map Char.toLower = "url("

/-- A text that starts with a `u` of either case, a plus sign and a place of a range of code points. -/
def RangeStarting (s : Text) : Prop :=
  ∃ u d r, s = u :: '+' :: d :: r ∧ (u = 'u' ∨ u = 'U') ∧ (d ∈ hexDigits ∨ d = '?')

/-- What the first characters of a text decide: the production that it falls to, or that it falls to none. -/
inductive Decided : Text → Option Production → Prop
  | comment (r : Text) : Decided ('/' :: '*' :: r) (some .comment)
  | whitespace {c : Char} (r : Text) : c ∈ [' ', '\t', '\n', '\r', '\x0c'] → Decided (c :: r) (some .whitespace)
  | string {c : Char} (r : Text) : c = '"' ∨ c = '\'' → Decided (c :: r) (some .string)
  | uri {s : Text} : UrlStarting s → Decided s (some .uri)
  | unicodeRange {s : Text} : RangeStarting s → Decided s (some .unicodeRange)
  | embeddingOpening (r : Text) : Decided ('<' :: '!' :: '-' :: '-' :: r) (some .embedding)
  | embeddingClosing (r : Text) : Decided ('-' :: '-' :: '>' :: r) (some .embedding)
  | attributeOperator {c : Char} (r : Text) : c ∈ ['~', '|', '^', '$', '*'] →
      Decided (c :: '=' :: r) (some .attributeOperator)
  | digit {c : Char} (r : Text) : c.isDigit = true → Decided (c :: r) (some .numeric)
  | fraction {c : Char} (r : Text) : c.isDigit = true → Decided ('.' :: c :: r) (some .numeric)
  | hash {s : Text} : ItemStarting ContinuesName s → Decided ('#' :: s) (some .hash)
  | ident {s : Text} : IdentStarting s → ¬ UrlStarting s → ¬ RangeStarting s → Decided s (some .identLike)
  | atKeyword {s : Text} : IdentStarting s → Decided ('@' :: s) (some .identLike)
  | refused {c : Char} (r : Text) :
      c.toNat ≤ 0x08 ∨ c.toNat = 0x0b ∨ (0x0e ≤ c.toNat ∧ c.toNat ≤ 0x1f) ∨ c.toNat = 0x7f → Decided (c :: r) none

/-! ## Classes -/

theorem notMem_of_nonascii {c : Char} (hc : isNonascii c = true) {l : List Char}
    (hl : (l.all fun d => !isNonascii d) = true) : c ∉ l := by
  intro hm
  have hascii := List.all_eq_true.mp hl c hm
  rw [hc] at hascii
  cases hascii

theorem isLetter_eq (c : Char) : isLetter c = c.isAlpha := by
  have hupper : ('A' ≤ c && c ≤ 'Z' : Bool) = c.isUpper := (Bool.decide_and ('A'.val ≤ c.val) (c.val ≤ 'Z'.val)).symm
  rw [isLetter, hupper, Bool.or_comm]
  rfl

theorem isNameStart_iff (c : Char) : isNameStart c = true ↔ StartsName c := by
  simp only [isNameStart, Bool.or_eq_true, isLetter_eq, beq_iff_eq, isNonascii_iff, StartsName, or_assoc]

theorem isNameChar_iff (c : Char) : isNameChar c = true ↔ ContinuesName c := by
  simp only [isNameChar, Bool.or_eq_true, isNameStart_iff, beq_iff_eq, ContinuesName, or_assoc]
  rfl

theorem isHexDigit_iff : ∀ c, isHexDigit c = true ↔ c ∈ hexDigits := by
  apply forall_char_of_ascii
  · decide +kernel
  · intro c hc
    exact iff_of_false (by rw [isHexDigit_of_nonascii hc]; decide) (notMem_of_nonascii hc (by decide))

theorem isNewline_iff (c : Char) : isNewline c = true ↔ c ∈ lineEnds := by
  simp [isNewline, lineEnds, or_assoc]

theorem isWhitespace_iff (c : Char) : isWhitespace c = true ↔ c ∈ [' ', '\t', '\n', '\r', '\x0c'] := by
  simp [isWhitespace, or_assoc]

theorem isQuote_iff (c : Char) : isQuote c = true ↔ c = '"' ∨ c = '\'' := by
  simp [isQuote]

/-! ## Starts of names, urls and ranges -/

theorem itemOpens_iff {p : Char → Bool} {P : Char → Prop} (hp : ∀ c, p c = true ↔ P c) {s : Text} :
    itemOpens p s = true ↔ ItemStarting P s := by
  constructor
  · intro h
    cases s with
    | nil => cases h
    | cons c r =>
      simp only [itemOpens, Bool.or_eq_true, Bool.and_eq_true, beq_iff_eq] at h
      rcases h with hc | ⟨rfl, hescape⟩
      · exact .char r ((hp c).mp hc)
      · cases r with
        | nil => cases hescape
        | cons d r =>
          refine .escape r fun hd => ?_
          rw [escapeOpens, List.head?_cons, Option.any_some, (isNewline_iff d).mpr hd] at hescape
          cases hescape
  · intro h
    cases h with
    | char r hc => rw [itemOpens, (hp _).mpr hc, Bool.true_or]
    | @escape d r hd =>
      have hline : isNewline d = false := by rw [← Bool.not_eq_true, isNewline_iff]; exact hd
      simp [itemOpens, escapeOpens, hline]

theorem identOpens_iff {s : Text} : identOpens s = true ↔ IdentStarting s := by
  constructor
  · intro h
    unfold identOpens at h
    split at h
    · exact .dash ((itemOpens_iff isNameStart_iff).mp h)
    · exact .name ((itemOpens_iff isNameStart_iff).mp h)
  · intro h
    cases h with
    | name hs =>
      have hopens := (itemOpens_iff isNameStart_iff).mpr hs
      unfold identOpens
      split
      · -- a dash starts no name
        exact absurd hopens (by simp [itemOpens, show isNameStart '-' = false by decide])
      · exact hopens
    | dash hs => exact (itemOpens_iff isNameStart_iff).mpr hs

namespace Production

theorem uri_opens_iff {s : Text} : uri.opens s = true ↔ UrlStarting s := by
  simp only [opens, UrlStarting]
  unfold afterUrlOpening?
  split
  · rename_i u r l rest
    have hparen : '('.toLower = '(' := by decide
    simp [isLetterOf, hparen, and_assoc]
  · rename_i hne
    refine iff_of_false (by decide) ?_
    intro h
    have hlength := congrArg List.length h
    rw [List.length_map, List.length_take, show (("url(" : String) : Text).length = 4 from rfl] at hlength
    obtain ⟨a, b, c, d, r, rfl⟩ := exists_four (s := s) (by omega)
    have hd : d.toLower = '(' := by simp_all
    exact hne a b c r (by rw [eq_parenthesis_of_toLower hd])

theorem unicodeRange_opens_iff {s : Text} : unicodeRange.opens s = true ↔ RangeStarting s := by
  simp only [opens]
  constructor
  · intro h
    split at h
    · rename_i u r
      rw [Bool.and_eq_true] at h
      cases r with
      | nil => cases h.2
      | cons d r =>
        have hd : isHexDigit d = true ∨ d = '?' := by simpa using h.2
        exact ⟨u, d, r, rfl, isLetterOf_u_iff.mp h.1, hd.imp_left (isHexDigit_iff d).mp⟩
    · cases h
  · rintro ⟨u, d, r, rfl, hu, hd⟩
    have hplace : isHexDigit d = true ∨ d = '?' := hd.imp_left (isHexDigit_iff d).mpr
    simpa [isLetterOf_u_iff.mpr hu] using hplace

/-! ## The table says when productions open -/

theorem opens_of_decided {s : Text} {p : Production} (h : Decided s (some p)) :
    p.opens s = true ∧ p ≠ delim ∧ (p = identLike → uri.opens s = false ∧ unicodeRange.opens s = false) := by
  cases h with
  | comment r => exact ⟨rfl, by decide, by simp⟩
  | whitespace r hc => exact ⟨(isWhitespace_iff _).mpr hc, by decide, by simp⟩
  | string r hc => exact ⟨(isQuote_iff _).mpr hc, by decide, by simp⟩
  | uri hs => exact ⟨uri_opens_iff.mpr hs, by decide, by simp⟩
  | unicodeRange hs => exact ⟨unicodeRange_opens_iff.mpr hs, by decide, by simp⟩
  | embeddingOpening r => exact ⟨rfl, by decide, by simp⟩
  | embeddingClosing r => exact ⟨rfl, by decide, by simp⟩
  | attributeOperator r hc => exact ⟨List.contains_iff_mem.mpr hc, by decide, by simp⟩
  | digit r hc => exact ⟨by simp [opens, numberOpens, show isDigit _ = true from hc], by decide, by simp⟩
  | fraction r hc =>
    exact ⟨by simp [opens, numberOpens, fractionOpens, show isDigit _ = true from hc], by decide, by simp⟩
  | hash hs => exact ⟨(itemOpens_iff isNameChar_iff).mpr hs, by decide, by simp⟩
  | ident hs hurl hrange =>
    refine ⟨?_, by decide, fun _ => ⟨by rwa [← Bool.not_eq_true, uri_opens_iff],
      by rwa [← Bool.not_eq_true, unicodeRange_opens_iff]⟩⟩
    have hident := identOpens_iff.mpr hs
    simp only [opens]
    split
    · -- an `@` starts no identifier
      cases hident
    · exact hident
  | @atKeyword r hs =>
    exact ⟨identOpens_iff.mpr hs, by decide,
      fun _ => ⟨opens_of_notMem_leading (by decide) (by decide) r, opens_of_notMem_leading (by decide) (by decide) r⟩⟩

theorem decided_of_opens {s : Text} {p : Production} (h : p.opens s = true) (hdelim : p ≠ delim)
    (hident : p = identLike → uri.opens s = false ∧ unicodeRange.opens s = false) : Decided s (some p) := by
  cases p with
  | comment =>
    simp only [opens] at h
    split at h
    · exact .comment _
    · cases h
  | whitespace =>
    cases s with
    | nil => cases h
    | cons c r => exact .whitespace r ((isWhitespace_iff c).mp h)
  | string =>
    cases s with
    | nil => cases h
    | cons c r => exact .string r ((isQuote_iff c).mp h)
  | uri => exact .uri (uri_opens_iff.mp h)
  | unicodeRange => exact .unicodeRange (unicodeRange_opens_iff.mp h)
  | embedding =>
    simp only [opens] at h
    split at h
    · exact .embeddingOpening _
    · exact .embeddingClosing _
    · cases h
  | attributeOperator =>
    simp only [opens] at h
    split at h
    · exact .attributeOperator _ (List.contains_iff_mem.mp h)
    · cases h
  | numeric =>
    simp only [opens, numberOpens, Bool.or_eq_true] at h
    rcases h with hdigit | hfraction
    · cases s with
      | nil => cases hdigit
      | cons c r => exact .digit r hdigit
    · unfold fractionOpens at hfraction
      split at hfraction
      · rename_i r
        cases r with
        | nil => cases hfraction
        | cons c r => exact .fraction r hfraction
      · cases hfraction
  | hash =>
    simp only [opens] at h
    split at h
    · exact .hash ((itemOpens_iff isNameChar_iff).mp h)
    · cases h
  | identLike =>
    obtain ⟨hurl, hrange⟩ := hident rfl
    simp only [opens] at h
    split at h
    · exact .atKeyword (identOpens_iff.mp h)
    · refine .ident (identOpens_iff.mp h) ?_ ?_
      · rwa [← uri_opens_iff, Bool.not_eq_true]
      · rwa [← unicodeRange_opens_iff, Bool.not_eq_true]
  | delim => exact absurd rfl hdelim

/-! ## What is selected -/

/-- What opens, and as an identifier opens alone, wins. -/
theorem wins_of_opens {s : Text} {p : Production} (h : p.opens s = true) (hdelim : p ≠ delim)
    (hident : p = identLike → uri.opens s = false ∧ unicodeRange.opens s = false) : Wins p s := by
  refine ⟨h, fun q hq => ?_⟩
  by_cases hqd : q = delim
  · exact .inr (.inl hqd)
  rcases opens_apart hdelim hqd h hq with rfl | hm
  · exact .inl rfl
  · simp only [overlapping, List.mem_cons, Prod.mk.injEq, List.not_mem_nil, or_false] at hm
    rcases hm with ⟨rfl, rfl⟩ | ⟨rfl, rfl⟩ | ⟨rfl, rfl⟩ | ⟨rfl, rfl⟩
    · exact .inr (.inr ⟨rfl, .inl rfl⟩)
    · rw [(hident rfl).1] at hq
      cases hq
    · exact .inr (.inr ⟨rfl, .inr rfl⟩)
    · rw [(hident rfl).2] at hq
      cases hq

theorem select?_eq_none_iff {s : Text} : select? s = none ↔ ∀ p : Production, p.opens s = false := by
  rw [select?_eq_firstOf, firstOf_eq_none_iff orderly_all]
  refine forall_congr' fun p => ?_
  rw [← isSome_lexeme?, Option.isSome_eq_false_iff, Option.isNone_iff_eq_none]

theorem opens_of_refused {c : Char} (r : Text)
    (hc : c.toNat ≤ 0x08 ∨ c.toNat = 0x0b ∨ (0x0e ≤ c.toNat ∧ c.toNat ≤ 0x1f) ∨ c.toNat = 0x7f) (p : Production) :
    p.opens (c :: r) = false := by
  have hclass : ∀ c : Char, c.toNat ≤ 0x08 ∨ c.toNat = 0x0b ∨ (0x0e ≤ c.toNat ∧ c.toNat ≤ 0x1f) ∨ c.toNat = 0x7f →
      leading c = [identLike] ∧ c ≠ '@' ∧ c ≠ '-' ∧ c ≠ '\\' ∧ isNameStart c = false ∧ isControl c = true := by
    apply forall_char_of_ascii
    · decide +kernel
    · intro c hna h
      have := isNonascii_iff.mp hna
      omega
  obtain ⟨hleading, hat, hdash, hescape, hstart, hcontrol⟩ := hclass c hc
  rw [← Bool.not_eq_true]
  intro h
  by_cases hp : p = delim
  · subst hp
    simp [opens, hcontrol] at h
  · have hm := mem_leading h hp
    rw [hleading, List.mem_singleton] at hm
    subst hm
    simp only [opens] at h
    split at h
    · rename_i heq
      cases heq
      exact hat rfl
    · rw [identOpens_cons_of_ne hdash] at h
      simp [itemOpens, hstart, hescape] at h

theorem select?_of_decided {s : Text} {o : Option Production} (h : Decided s o) : (select? s).map Prod.fst = o := by
  cases o with
  | none =>
    cases h with
    | refused r hc => rw [select?_eq_none_iff.mpr (opens_of_refused r hc)]; rfl
  | some p =>
    obtain ⟨hopens, hdelim, hident⟩ := opens_of_decided h
    have hsome : (p.lexeme? s).isSome = true := by rw [isSome_lexeme?, hopens]
    obtain ⟨l, hl⟩ := Option.isSome_iff_exists.mp hsome
    rw [select?_of_wins (wins_of_opens hopens hdelim hident) hl]
    rfl

/-- Whatever is selected, the single character apart, the table has decided. -/
theorem decided_of_select? {c : Char} {r : Text} {o : Option Production}
    (h : (select? (c :: r)).map Prod.fst = o) (hdelim : o ≠ some delim) : Decided (c :: r) o := by
  cases hsel : select? (c :: r) with
  | none =>
    have hrefused : (refused.all fun c => decide
        (c.toNat ≤ 0x08 ∨ c.toNat = 0x0b ∨ (0x0e ≤ c.toNat ∧ c.toNat ≤ 0x1f) ∨ c.toNat = 0x7f)) = true := by decide
    rw [hsel] at h
    subst h
    exact .refused r (of_decide_eq_true (List.all_eq_true.mp hrefused c (mem_refused_of_select?_eq_none hsel)))
  | some found =>
    obtain ⟨p, l⟩ := found
    rw [hsel] at h
    subst h
    have hwins : Wins p (c :: r) := firstOf_wins orderly_all hsel
    refine decided_of_opens hwins.opens (fun hp => hdelim (congrArg some hp)) ?_
    rintro rfl
    have hother {q : Production} (hq : q ≠ identLike ∧ q ≠ delim) : q.opens (c :: r) = false := by
      rw [← Bool.not_eq_true]
      intro hopens
      rcases hwins.yields q hopens with heq | heq | ⟨heq, -⟩
      · exact hq.1 heq
      · exact hq.2 heq
      · exact hq.1 heq
    exact ⟨hother (by decide), hother (by decide)⟩

theorem not_decided_delim {s : Text} : ¬ Decided s (some delim) := nofun

/-- Which production a text falls to is decided by its first four characters. It is the one that the table names; it is
none where the table says so; and in all remaining cases it is the single character. -/
theorem select?_iff_decided (c : Char) (r : Text) (o : Option Production) :
    (select? (c :: r)).map Prod.fst = o ↔
      Decided (c :: r) o ∨ (o = some delim ∧ ∀ o', ¬ Decided (c :: r) o') := by
  constructor
  · intro h
    by_cases hdelim : o = some delim
    · subst hdelim
      refine .inr ⟨rfl, fun o' h' => ?_⟩
      rw [select?_of_decided h'] at h
      exact not_decided_delim (h ▸ h')
    · exact .inl (decided_of_select? h hdelim)
  · rintro (h | ⟨rfl, hnone⟩)
    · exact select?_of_decided h
    · by_contra hdelim
      exact hnone _ (decided_of_select? rfl hdelim)

end Production

end CssLexer
