/-
  CssLexer.Proofs.Grammar.Denotation — a value denotes what its escapes stand for, in the extents of the lexer.

  The decoder of escapes and the lexer count apart from each other how much of a text belongs to an escape. `Denotes`
  is the reference for both: it cuts a value by the lexer's count and puts for each escape the character it stands for.

  Proved:
  - `names_iff`: a number names the character the decoder makes of it.
  - `standsFor_decodeEscape`: what the decoder makes of an escape of the lexer is what the escape stands for.
  - `denotes_unescape`, `Denotes.unescape_eq`: the decoded text is the one that the value denotes.
  - `unescape_denotes`: so decoding is that relation; it shortens every value with a backslash and no other.
-/

import CssLexer.Proofs.Decoding
import CssLexer.Proofs.Grammar.Longest

namespace CssLexer

namespace Grammar

/-- The number `n` names the character with that code point; zero, a surrogate and what is out of range name a
replacement. -/
def Names (n : Nat) (c : Char) : Prop :=
  (n ≠ 0 ∧ c.toNat = n) ∨ ((n = 0 ∨ (0xD800 ≤ n ∧ n ≤ 0xDFFF) ∨ 0x10FFFF < n) ∧ c = '\uFFFD')

/-- The text of an escape stands for a character. -/
inductive StandsFor : Text → Char → Prop
  | number {digits blank : Text} {c : Char} : digits ∈ between 1 6 isHexDigit →
      blank ∈ optional (exactly ['\r', '\n'] + one isWhitespace) → Names (hexValue digits) c →
      StandsFor ('\\' :: (digits ++ blank)) c
  | itself {c : Char} : isHexDigit c = false → StandsFor ['\\', c] c

/-- The value `v` denotes the text `w`. -/
inductive Denotes : Text → Text → Prop
  | done : Denotes [] []
  | char {c : Char} {v w : Text} : c ≠ '\\' → Denotes v w → Denotes (c :: v) (c :: w)
  | escape {v w : Text} {n : Nat} {c : Char} : escapeLength? v = some n → StandsFor (v.take n) c →
      Denotes (v.drop n) w → Denotes v (c :: w)
  /-- A line end behind a backslash goes away with it. -/
  | continued {r w : Text} {n : Nat} : IsLongest newline r n → Denotes (r.drop n) w → Denotes ('\\' :: r) w
  /-- So does a backslash at the end. -/
  | cut : Denotes ['\\'] []

/-! ## One escape -/

theorem names_iff {n : Nat} {c : Char} : Names n c ↔ c = escapedScalar n := by
  constructor
  · rintro (⟨hn, rfl⟩ | ⟨hn, rfl⟩)
    · rw [escapedScalar, if_pos ⟨hn, c.valid⟩, Char.ofNat_toNat]
    · rw [escapedScalar, if_neg]
      rintro ⟨hne, hvalid⟩
      simp only [Nat.isValidChar] at hvalid
      omega
  · rintro rfl
    rw [escapedScalar]
    split
    · rename_i h
      refine .inl ⟨h.1, ?_⟩
      rw [Char.ofNat, dif_pos h.2]
      rfl
    · rename_i h
      refine .inr ⟨?_, rfl⟩
      simp only [Nat.isValidChar, not_and_or] at h
      omega

/-- The blank of an escape starts with no digit, so the digits of the escape are all there are. -/
theorem takeWhile_digits {digits blank : Text} (hdigits : digits ∈ between 1 6 isHexDigit)
    (hblank : blank ∈ optional (exactly ['\r', '\n'] + one isWhitespace)) :
    (digits ++ blank).takeWhile isHexDigit = digits := by
  have hnone : blank.takeWhile isHexDigit = [] := by
    rcases hblank with rfl | rfl | ⟨c, hc, rfl⟩
    · rfl
    · rfl
    · exact List.takeWhile_cons_of_neg (by simp [isHexDigit_of_isWhitespace hc])
  rw [List.takeWhile_append_of_pos hdigits.2.2, hnone, List.append_nil]

theorem StandsFor.eq_cons {e : Text} {c : Char} (h : StandsFor e c) :
    ∃ r, e = '\\' :: r ∧
      ((r.takeWhile isHexDigit ≠ [] ∧ c = escapedScalar (hexValue (r.takeWhile isHexDigit))) ∨
        (r.takeWhile isHexDigit = [] ∧ r = [c])) := by
  cases h with
  | @number digits blank c hdigits hblank hc =>
    refine ⟨digits ++ blank, rfl, .inl ?_⟩
    rw [takeWhile_digits hdigits hblank]
    exact ⟨List.length_pos_iff.mp hdigits.1, names_iff.mp hc⟩
  | @itself c hc => exact ⟨[c], rfl, .inr ⟨List.takeWhile_cons_of_neg (by simp [hc]), rfl⟩⟩

theorem StandsFor.unique {e : Text} {c d : Char} (h : StandsFor e c) (h' : StandsFor e d) : c = d := by
  obtain ⟨r, rfl, ⟨hne, rfl⟩ | ⟨hnil, rfl⟩⟩ := h.eq_cons
  · obtain ⟨r', heq, ⟨-, rfl⟩ | ⟨hnil, -⟩⟩ := h'.eq_cons <;> cases heq
    · rfl
    · exact absurd hnil hne
  · obtain ⟨r', heq, ⟨hne, -⟩ | ⟨-, rfl⟩⟩ := h'.eq_cons <;> cases heq
    · exact absurd hnil hne
    · rfl

theorem escapeLength?_eq_some_iff {v : Text} {n : Nat} :
    escapeLength? v = some n ↔ ∃ r k, v = '\\' :: r ∧ escapeTail? r = some k ∧ n = k + 1 := by
  constructor
  · intro h
    unfold escapeLength? at h
    split at h
    · obtain ⟨k, hk, rfl⟩ := Option.map_eq_some_iff.mp h
      exact ⟨_, k, rfl, hk, Nat.add_comm 1 k⟩
    · cases h
  · rintro ⟨r, k, rfl, hk, rfl⟩
    rw [escapeLength?, hk, Option.map_some, Nat.add_comm]

theorem standsFor_decodeEscape {r : Text} {k : Nat} (h : escapeTail? r = some k) :
    ∃ c, StandsFor ('\\' :: r.take k) c ∧ decodeEscape r = (some c, r.drop k) := by
  cases r with
  | nil => cases h
  | cons d r =>
    have hreach := escapeReach_of_some h
    rw [escapeTail?] at h
    split at h
    · rename_i hx
      refine ⟨_, ?_, by rw [decodeEscape_of_hexDigit hx, hreach]⟩
      cases h
      rw [List.take_add]
      exact .number (take_digits_mem hx r) (take_terminatorLength_mem _) (names_iff.mpr rfl)
    · rename_i hx
      split at h
      · cases h
      · rename_i hn
        cases h
        exact ⟨d, .itself (by simpa using hx), by rw [decodeEscape_of_plain hx hn, hreach]⟩

theorem decodeEscape_of_newlineLength {r : Text} (h : 0 < newlineLength r) :
    decodeEscape r = (none, r.drop (newlineLength r)) := by
  cases r with
  | nil => cases h
  | cons d r =>
    by_cases hn : isNewline d = true
    · rw [decodeEscape_of_newline hn, escapeReach_of_newline hn]
    · rw [newlineLength_eq, breakLength_cons, if_neg hn] at h
      · cases h
      · rintro ⟨rfl, -⟩
        exact hn (by decide)

/-! ## Values -/

theorem Denotes.unescape_eq {v w : Text} (h : Denotes v w) : unescape v = w := by
  induction h with
  | done => exact unescape_nil
  | char hc _ ih => rw [unescape_cons, if_neg hc, ih]
  | @escape v w n c hn hc _ ih =>
    obtain ⟨r, k, rfl, hk, rfl⟩ := escapeLength?_eq_some_iff.mp hn
    obtain ⟨d, hd, hdecode⟩ := standsFor_decodeEscape hk
    rw [List.drop_succ_cons] at ih
    rw [unescape_cons, if_pos rfl, hdecode, hd.unique hc, ih]
    rfl
  | @continued r w n hn _ ih =>
    obtain ⟨rfl, hpos⟩ := isLongest_newline_iff.mp hn
    rw [unescape_cons, if_pos rfl, decodeEscape_of_newlineLength hpos, ih]
    rfl
  | cut => simp [unescape_cons, decodeEscape]

theorem denotes_unescape (v : Text) : Denotes v (unescape v) := by
  induction hn : v.length using Nat.strongRecOn generalizing v with
  | _ n ih =>
    cases v with
    | nil =>
      rw [unescape_nil]
      exact .done
    | cons c r =>
      rw [List.length_cons] at hn
      rw [unescape_cons]
      split
      · rename_i hc
        subst hc
        have hrest (k : Nat) : Denotes (r.drop k) (unescape (r.drop k)) :=
          ih (r.drop k).length (by rw [List.length_drop]; omega) _ rfl
        cases hk : escapeTail? r with
        | some k =>
          obtain ⟨d, hd, hdecode⟩ := standsFor_decodeEscape hk
          rw [hdecode]
          exact .escape (escapeLength?_eq_some_iff.mpr ⟨r, k, rfl, hk, rfl⟩) hd (hrest k)
        | none =>
          by_cases hpos : 0 < newlineLength r
          · rw [decodeEscape_of_newlineLength hpos]
            exact .continued (isLongest_newline_iff.mpr ⟨rfl, hpos⟩) (hrest _)
          · cases r with
            | nil => simpa [decodeEscape] using Denotes.cut
            | cons d r =>
              have hreach := escapeReach_pos d r
              rw [escapeReach_of_none hk] at hreach
              exact absurd hreach hpos
      · rename_i hc
        exact .char hc (ih r.length (by omega) r rfl)

theorem Denotes.length_le {v w : Text} (h : Denotes v w) :
    w.length ≤ v.length ∧ ('\\' ∈ v → w.length < v.length) := by
  induction h with
  | done => simp
  | @char c v w hc _ ih =>
    refine ⟨Nat.succ_le_succ ih.1, fun hm => Nat.succ_lt_succ (ih.2 ?_)⟩
    exact (List.mem_cons.mp hm).resolve_left (Ne.symm hc)
  | @escape v w n c hn _ _ ih =>
    obtain ⟨r, k, rfl, hk, rfl⟩ := escapeLength?_eq_some_iff.mp hn
    have hpos := escapeTail?_pos hk
    have hle := escapeTail?_le hk
    have hrest := ih.1
    rw [List.drop_succ_cons, List.length_drop] at hrest
    simp only [List.length_cons]
    omega
  | @continued r w n _ _ ih =>
    have hrest := ih.1
    rw [List.length_drop] at hrest
    rw [List.length_cons]
    omega
  | cut => simp

theorem denotes_self {v : Text} (h : '\\' ∉ v) : Denotes v v := by
  induction v with
  | nil => exact .done
  | cons c v ih =>
    rw [List.mem_cons, not_or] at h
    exact .char (Ne.symm h.1) (ih h.2)

end Grammar

/-- A value is decoded to the text that it denotes by the escapes of the lexer. That text is shorter than the value
where there is a backslash, and where there is none it is the value itself, and nothing is decoded. -/
theorem unescape_denotes (v : Text) :
    (∀ w, unescape v = w ↔ Grammar.Denotes v w) ∧
    ((unescape v).length < v.length ↔ '\\' ∈ v) ∧
    ('\\' ∉ v → unescape v = v) ∧
    (unescape? v = none ↔ '\\' ∉ v) ∧
    ∀ w, unescape? v = some w ↔ '\\' ∈ v ∧ unescape v = w := by
  have hself (h : '\\' ∉ v) : unescape v = v := (Grammar.denotes_self h).unescape_eq
  refine ⟨fun w => ⟨fun h => h ▸ Grammar.denotes_unescape v, Grammar.Denotes.unescape_eq⟩, ?_, hself, ?_, fun w => ?_⟩
  · refine ⟨fun hlt => ?_, (Grammar.denotes_unescape v).length_le.2⟩
    by_contra h
    rw [hself h] at hlt
    exact Nat.lt_irrefl _ hlt
  · simp [unescape?]
  · simp [unescape?]

end CssLexer
