/-
  CssLexer.Proofs.Grammar.Longest — longest beginnings of a text in a language, and runs of items against its star.

  The grammar is ambiguous where the lexer is not. An escape of the grammar may stop at any of its digits, and before
  the blank behind them; the lexer takes all digits and the blank along and never goes back. So between a beginning
  that is derived in the grammar and the place where the lexer comes to stand there are only digits and blanks
  (`Trails`). The grammar reads them as characters of their own or cannot read them at all, and either way the lexer has
  got as far.

  Proved:
  - `FindsLongest.eq_some_iff`, `FindsLongest.eq_none_iff`: to find the longest beginning it is enough that what is
    found is a beginning and that behind any beginning something no shorter is found.
  - `Classifies.whole_iff`, `Classifies.part_iff`: likewise where what is found is whole or left unfinished.
  - `escape_reach`, `take_escape_mem`: the lexer's escape is one of the grammar, and no shorter than any.
  - `Greedy.run`: behind any items of the grammar, the run of the lexer goes on as a run does there, trailing
    characters apart; `Greedy.take_run`: the run itself consists of items.
  - `greedy_charOrEscape`: this holds of the items that are a character of a class or an escape.
-/

import CssLexer.Grammar
import CssLexer.Kind
import CssLexer.Proofs.Lookahead

namespace CssLexer.Grammar

/-! ## Languages -/

theorem mem_exactly {s t : Text} : s ∈ exactly t ↔ s = t := Iff.rfl

theorem singleton_mem_one {p : Char → Bool} {c : Char} : [c] ∈ one p ↔ p c = true := by
  constructor
  · rintro ⟨d, hd, heq⟩
    cases heq
    exact hd
  · intro hc
    exact ⟨c, hc, rfl⟩

theorem mem_optional {l : Language Char} {s : Text} : s ∈ optional l ↔ s = [] ∨ s ∈ l := Iff.rfl

theorem mem_star_iff {l : Language Char} {u : Text} :
    u ∈ KStar.kstar l ↔ u = [] ∨ ∃ v ∈ l, ∃ w ∈ KStar.kstar l, v ++ w = u := by
  nth_rewrite 1 [← Language.one_add_self_mul_kstar_eq_kstar]
  exact Iff.rfl

theorem append_mem_star {l : Language Char} {v u : Text} (hv : v ∈ l) (hu : u ∈ KStar.kstar l) :
    v ++ u ∈ KStar.kstar l := mem_star_iff.mpr (.inr ⟨v, hv, u, hu, rfl⟩)

theorem mem_oneOrMore {l : Language Char} {u : Text} (hu : u ∈ KStar.kstar l) (hne : u ≠ []) : u ∈ oneOrMore l :=
  (mem_star_iff.mp hu).resolve_left hne

theorem mem_star_one {p : Char → Bool} {u : Text} : u ∈ KStar.kstar (one p) ↔ ∀ c ∈ u, p c = true := by
  induction u with
  | nil => simp [Language.nil_mem_kstar]
  | cons c u ih =>
    rw [List.forall_mem_cons, ← ih, mem_star_iff]
    constructor
    · rintro (hnil | ⟨v, ⟨d, hd, rfl⟩, w, hw, heq⟩)
      · cases hnil
      · cases heq
        exact ⟨hd, hw⟩
    · rintro ⟨hc, hu⟩
      exact .inr ⟨[c], singleton_mem_one.mpr hc, u, hu, rfl⟩

theorem mem_oneOrMore_one {p : Char → Bool} {u : Text} : u ∈ oneOrMore (one p) ↔ u ≠ [] ∧ ∀ c ∈ u, p c = true := by
  constructor
  · intro h
    obtain ⟨_, ⟨c, hc, rfl⟩, v, hv, rfl⟩ := h
    exact ⟨List.cons_ne_nil c v, List.forall_mem_cons.mpr ⟨hc, mem_star_one.mp hv⟩⟩
  · intro ⟨hne, h⟩
    exact mem_oneOrMore (mem_star_one.mpr h) hne

/-! ## Longest beginnings -/

theorem IsLongest.unique {l : Language Char} {s : Text} {m n : Nat} (h : IsLongest l s m) (h' : IsLongest l s n) :
    m = n := Nat.le_antisymm (h'.2.2 m h.1 h.2.1) (h.2.2 n h'.1 h'.2.1)

/-- The texts of any of several forms. -/
def anyOf (form : Kind → Language Char) : Language Char := {v | ∃ k, v ∈ form k}

/-- What `find` finds is a beginning of the form of its kind, and behind a beginning of any form it finds that one or
something longer. -/
structure FindsLongest (find : Text → Option Lexeme) (form : Kind → Language Char) : Prop where
  sound {s : Text} {l : Lexeme} : find s = some l → l.length ≤ s.length ∧ s.take l.length ∈ form l.kind
  reach {v : Text} {k : Kind} (t : Text) : v ∈ form k →
    ∃ l, find (v ++ t) = some l ∧ (v.length < l.length ∨ l = ⟨k, v.length⟩)

namespace FindsLongest

variable {find : Text → Option Lexeme} {form : Kind → Language Char}

theorem reach_take (h : FindsLongest find form) {s : Text} {k : Kind} {n : Nat} (hn : n ≤ s.length)
    (hs : s.take n ∈ form k) : ∃ l, find s = some l ∧ (n < l.length ∨ l = ⟨k, n⟩) := by
  have hreach := h.reach (s.drop n) hs
  rwa [List.take_append_drop, List.length_take_of_le hn] at hreach

/-- What is found is the longest beginning of any of the forms, with the kind of its form. -/
theorem eq_some_iff (h : FindsLongest find form) {s : Text} {k : Kind} {n : Nat} :
    find s = some ⟨k, n⟩ ↔ s.take n ∈ form k ∧ IsLongest (anyOf form) s n := by
  constructor
  · intro hfound
    obtain ⟨hle, hmem⟩ := h.sound hfound
    refine ⟨hmem, hle, ⟨k, hmem⟩, ?_⟩
    rintro m hm ⟨k', hk'⟩
    obtain ⟨l, hl, hlength⟩ := h.reach_take hm hk'
    rw [hfound] at hl
    cases hl
    rcases hlength with hlt | heq
    · exact Nat.le_of_lt hlt
    · cases heq
      exact Nat.le_refl _
  · rintro ⟨hmem, hle, -, hlongest⟩
    obtain ⟨l, hl, hlt | rfl⟩ := h.reach_take hle hmem
    · obtain ⟨hle', hmem'⟩ := h.sound hl
      have := hlongest l.length hle' ⟨l.kind, hmem'⟩
      omega
    · exact hl

theorem eq_none_iff (h : FindsLongest find form) {s : Text} : find s = none ↔ ∀ n, s.take n ∉ anyOf form := by
  constructor
  · rintro hnone n ⟨k, hk⟩
    obtain ⟨l, hl, -⟩ := h.reach (s.drop n) hk
    rw [List.take_append_drop, hnone] at hl
    cases hl
  · intro hne
    cases hfound : find s with
    | none => rfl
    | some l => exact absurd ⟨l.kind, (h.sound hfound).2⟩ (hne l.length)

end FindsLongest

/-- The first `n` characters are the one beginning of `s` in the language. -/
def IsOnly (l : Language Char) (s : Text) (n : Nat) : Prop :=
  n ≤ s.length ∧ s.take n ∈ l ∧ ∀ m ≤ s.length, s.take m ∈ l → m = n

/-- No beginning of `s` is a text of `whole`; the first `n` characters are as much of one as there is. -/
structure Unfinished (whole part : Language Char) (s : Text) (n : Nat) : Prop where
  unclosed : ∀ m, s.take m ∉ whole
  longest : IsLongest part s n

/-- What is found at the start of `s` is a text of `whole` and has the kind `good`, or one of `part` and has the kind
`bad`. A beginning of `s` in `whole` is found as it is, and where there is one in `part`, something no shorter is. -/
structure Classifies (found : Option Lexeme) (s : Text) (good bad : Kind) (whole part : Language Char) : Prop where
  ne : good ≠ bad
  sound {l : Lexeme} : found = some l → l.length ≤ s.length ∧
    ((l.kind = good ∧ s.take l.length ∈ whole) ∨ (l.kind = bad ∧ s.take l.length ∈ part))
  whole (n : Nat) : n ≤ s.length → s.take n ∈ whole → found = some ⟨good, n⟩
  part (n : Nat) : n ≤ s.length → s.take n ∈ part → ∃ l, found = some l ∧ n ≤ l.length

namespace Classifies

variable {found : Option Lexeme} {s : Text} {good bad : Kind} {whole part : Language Char} {n : Nat}

theorem whole_iff (h : Classifies found s good bad whole part) : found = some ⟨good, n⟩ ↔ IsOnly whole s n := by
  constructor
  · intro hfound
    obtain ⟨hle, ⟨-, hmem⟩ | ⟨hkind, -⟩⟩ := h.sound hfound
    · refine ⟨hle, hmem, fun m hm hs => ?_⟩
      have hother := h.whole m hm hs
      rw [hfound] at hother
      cases hother
      rfl
    · exact absurd hkind h.ne
  · rintro ⟨hle, hmem, -⟩
    exact h.whole n hle hmem

theorem unfinished (h : Classifies found s good bad whole part) (hfound : found = some ⟨bad, n⟩) :
    Unfinished whole part s n where
  unclosed m hm := by
    rw [List.take_eq_take_min] at hm
    have hwhole := h.whole _ (Nat.min_le_right m s.length) hm
    rw [hfound] at hwhole
    cases hwhole
    exact h.ne rfl
  longest := by
    obtain ⟨hle, ⟨hkind, -⟩ | ⟨-, hmem⟩⟩ := h.sound hfound
    · exact absurd hkind.symm h.ne
    · refine ⟨hle, hmem, fun m hm hs => ?_⟩
      obtain ⟨l, hl, hlength⟩ := h.part m hm hs
      rw [hfound] at hl
      cases hl
      exact hlength

theorem part_iff (h : Classifies found s good bad whole part) :
    found = some ⟨bad, n⟩ ↔ Unfinished whole part s n := by
  refine ⟨h.unfinished, fun hpart => ?_⟩
  obtain ⟨⟨kind, m⟩, hl, -⟩ := h.part n hpart.longest.1 hpart.longest.2.1
  obtain ⟨-, ⟨-, hmem⟩ | ⟨rfl, -⟩⟩ := h.sound hl
  · exact absurd hmem (hpart.unclosed m)
  · rw [hl, (h.unfinished hl).longest.unique hpart.longest]

/-- What is found is of one of the two sorts. -/
theorem isOnly_or_unfinished (h : Classifies found s good bad whole part) (hsome : found.isSome = true) :
    (∃ n, IsOnly whole s n) ∨ ∃ n, Unfinished whole part s n := by
  obtain ⟨⟨kind, n⟩, hl⟩ := Option.isSome_iff_exists.mp hsome
  obtain ⟨-, ⟨rfl, -⟩ | ⟨rfl, -⟩⟩ := h.sound hl
  · exact .inl ⟨n, h.whole_iff.mp hl⟩
  · exact .inr ⟨n, h.unfinished hl⟩

end Classifies

/-! ## Escapes -/

/-- Characters that the lexer may take along behind an escape of the grammar: more of its digits, and a blank. -/
def Trails (y : Text) : Prop := ∀ c ∈ y, isHexDigit c = true ∨ isWhitespace c = true

theorem trails_nil : Trails [] := nofun

theorem Trails.append {y z : Text} (hy : Trails y) (hz : Trails z) : Trails (y ++ z) := fun c hc =>
  (List.mem_append.mp hc).elim (hy c) (hz c)

theorem Trails.of_append {y z : Text} (h : Trails (y ++ z)) : Trails z := fun c hc => h c (List.mem_append_right y hc)

theorem Trails.eq_nil {c : Char} {t z q : Text} (h : Trails z) (heq : c :: t = z ++ q) (hx : isHexDigit c = false)
    (hw : isWhitespace c = false) : z = [] := by
  cases z with
  | nil => rfl
  | cons d z =>
    cases heq
    have := h c List.mem_cons_self
    simp [hx, hw] at this

theorem Trails.notMem_backslash {y : Text} (hy : Trails y) : '\\' ∉ y := by
  intro hm
  have := hy _ hm
  revert this
  decide

theorem mem_escape_iff {v : Text} :
    v ∈ escape ↔
      (∃ digits ∈ between 1 6 isHexDigit, ∃ blank ∈ optional (exactly ['\r', '\n'] + one isWhitespace),
        v = '\\' :: (digits ++ blank)) ∨
      ∃ c, isNewline c = false ∧ isHexDigit c = false ∧ v = ['\\', c] := by
  constructor
  · rintro (⟨_, ⟨_, rfl, digits, hdigits, rfl⟩, blank, hblank, rfl⟩ | ⟨_, rfl, _, ⟨c, hc, rfl⟩, rfl⟩)
    · exact .inl ⟨digits, hdigits, blank, hblank, rfl⟩
    · simp only [Bool.and_eq_true, Bool.not_eq_true'] at hc
      exact .inr ⟨c, hc.1, hc.2, rfl⟩
  · rintro (⟨digits, hdigits, blank, hblank, rfl⟩ | ⟨c, hn, hx, rfl⟩)
    · exact .inl (Language.append_mem_mul (Language.append_mem_mul (mem_exactly.mpr rfl) hdigits) hblank)
    · exact .inr (Language.append_mem_mul (mem_exactly.mpr rfl) (singleton_mem_one.mpr (by simp [hn, hx])))

theorem break_reach {p : Char → Bool} {b : Text} (h : b ∈ exactly ['\r', '\n'] + one p) (t : Text) :
    ∃ y r, t = y ++ r ∧ Trails y ∧ breakLength p (b ++ t) = b.length + y.length := by
  rcases h with rfl | ⟨c, hc, rfl⟩
  · exact ⟨[], t, rfl, trails_nil, rfl⟩
  by_cases hcr : c = '\r' ∧ t.head? = some '\n'
  · obtain ⟨rfl, ht⟩ := hcr
    obtain ⟨r, rfl⟩ := List.head?_eq_some_iff.mp ht
    refine ⟨['\n'], r, rfl, ?_, rfl⟩
    intro d hd
    rw [List.mem_singleton] at hd
    subst hd
    decide
  · refine ⟨[], t, rfl, trails_nil, ?_⟩
    rw [List.singleton_append, breakLength_cons hcr, if_pos hc]
    rfl

theorem take_breakLength_mem (p : Char → Bool) (s : Text) :
    s.take (breakLength p s) ∈ optional (exactly ['\r', '\n'] + one p) := by
  fun_cases breakLength p s with
  | case1 r => exact .inr (.inl rfl)
  | case2 c r _ hc => exact .inr (.inr ⟨c, hc, rfl⟩)
  | case3 c r _ hc => exact .inl rfl
  | case4 => exact .inl rfl

theorem take_newlineLength_mem {s : Text} (h : 0 < newlineLength s) : s.take (newlineLength s) ∈ newline := by
  have hmem := take_breakLength_mem isNewline s
  rw [newlineLength_eq] at h ⊢
  refine (mem_optional.mp hmem).resolve_left fun hnil => ?_
  rcases List.take_eq_nil_iff.mp hnil with hzero | rfl
  · omega
  · cases h

theorem isLongest_newline_iff {s : Text} {n : Nat} : IsLongest newline s n ↔ newlineLength s = n ∧ 0 < n := by
  have hreach {m : Nat} (hle : m ≤ s.length) (hm : s.take m ∈ newline) : m ≤ newlineLength s := by
    obtain ⟨y, -, -, -, hbreak⟩ := break_reach hm (s.drop m)
    rw [List.take_append_drop, List.length_take_of_le hle, ← newlineLength_eq] at hbreak
    omega
  constructor
  · rintro ⟨hle, hmem, hmax⟩
    have hn := hreach hle hmem
    have hpos : 0 < n := by
      rw [Nat.pos_iff_ne_zero]
      rintro rfl
      rcases hmem with hnil | ⟨c, -, hnil⟩ <;> cases hnil
    have := hmax _ (newlineLength_le s) (take_newlineLength_mem (by omega))
    omega
  · rintro ⟨rfl, hpos⟩
    exact ⟨newlineLength_le s, take_newlineLength_mem hpos, fun m hle hm => hreach hle hm⟩

theorem countWhile_append_of_all {p : Char → Bool} {d : Text} (hd : ∀ c ∈ d, p c = true) (t : Text) :
    countWhile p (d ++ t) = d.length + countWhile p t := by
  rw [countWhile, List.takeWhile_append_of_pos hd, List.length_append]
  rfl

theorem countUpTo_append_of_all {n : Nat} {p : Char → Bool} {d : Text} (hd : ∀ c ∈ d, p c = true) (hle : d.length ≤ n)
    (t : Text) : countUpTo n p (d ++ t) = d.length + countUpTo (n - d.length) p t := by
  rw [countUpTo, countUpTo, List.take_append, List.take_of_length_le hle, countWhile, List.takeWhile_append_of_pos hd,
    List.length_append]
  rfl

theorem countUpTo_of_not {p : Char → Bool} {c : Char} (hc : p c = false) (n : Nat) (t : Text) :
    countUpTo n p (c :: t) = 0 := by
  rw [countUpTo, countWhile_eq_zero_iff]
  cases n <;> simp [hc]

theorem take_markedLength_mem {l : Language Char} {mark : Char} {count : Text → Nat}
    (hcount : ∀ r, count r ≠ 0 → r.take (count r) ∈ l) {s : Text} (h : markedLength mark count s ≠ 0) :
    ∃ e ∈ l, s.take (markedLength mark count s) = mark :: e := by
  cases s with
  | nil => exact absurd rfl h
  | cons c r =>
    rw [markedLength] at h ⊢
    split at h
    · rename_i hc
      split at h
      · exact absurd rfl h
      · rename_i hr
        rw [if_pos hc, if_neg hr, hc, Nat.add_comm, List.take_succ_cons]
        exact ⟨_, hcount r hr, rfl⟩
    · exact absurd rfl h

theorem isHexDigit_of_isWhitespace {c : Char} (h : isWhitespace c = true) : isHexDigit c = false := by
  simp only [isWhitespace, Bool.or_eq_true, beq_iff_eq] at h
  rcases h with (((rfl | rfl) | rfl) | rfl) | rfl <;> decide

theorem trails_digits (n : Nat) (s : Text) : Trails (s.take (countUpTo n isHexDigit s)) :=
  fun _ hc => .inl (of_mem_take_countUpTo hc)

theorem take_terminatorLength_mem (s : Text) :
    s.take (terminatorLength s) ∈ optional (exactly ['\r', '\n'] + one isWhitespace) := by
  rw [terminatorLength_eq]
  exact take_breakLength_mem _ _

theorem take_countWhile_mem {p : Char → Bool} {s : Text} (h : countWhile p s ≠ 0) :
    s.take (countWhile p s) ∈ oneOrMore (one p) := by
  refine mem_oneOrMore_one.mpr ⟨?_, fun _ => of_mem_take_countWhile⟩
  intro hnil
  rw [← List.length_eq_zero_iff, List.length_take_of_le (countWhile_le p s)] at hnil
  exact h hnil

theorem take_countUpTo_mem {n : Nat} {p : Char → Bool} {s : Text} (h : countUpTo n p s ≠ 0) :
    s.take (countUpTo n p s) ∈ between 1 n p := by
  refine ⟨?_, ?_, fun _ => of_mem_take_countUpTo⟩ <;> rw [List.length_take_of_le (countUpTo_le _ _ _)]
  · exact Nat.pos_of_ne_zero h
  · exact countUpTo_le_limit _ _ _

theorem take_digits_mem {c : Char} (hc : isHexDigit c = true) (r : Text) :
    (c :: r).take (countUpTo 6 isHexDigit (c :: r)) ∈ between 1 6 isHexDigit :=
  take_countUpTo_mem (Nat.ne_of_gt (countUpTo_hexDigit_pos hc r))

theorem trails_terminator (s : Text) : Trails (s.take (terminatorLength s)) := by
  intro c hc
  rcases take_terminatorLength_mem s with hnil | hcrlf | ⟨d, hd, heq⟩
  · rw [hnil] at hc
    cases hc
  · rw [mem_exactly.mp hcrlf] at hc
    rcases List.mem_pair.mp hc with rfl | rfl <;> decide
  · rw [heq, List.mem_singleton] at hc
    exact .inr (hc ▸ hd)

/-- Behind an escape of the grammar the lexer may take more digits and a blank along, and nothing else. -/
theorem escape_reach {v : Text} (h : v ∈ escape) :
    ∃ w, v = '\\' :: w ∧
      ∀ t, ∃ y r, t = y ++ r ∧ Trails y ∧ escapeTail? (w ++ t) = some (w.length + y.length) := by
  rcases mem_escape_iff.mp h with ⟨digits, ⟨hpos, hle, hdigits⟩, blank, hblank, rfl⟩ | ⟨c, hn, hx, rfl⟩
  · refine ⟨digits ++ blank, rfl, fun t => ?_⟩
    obtain ⟨c, d, rfl⟩ := List.exists_cons_of_length_pos hpos
    have htail (t : Text) : escapeTail? (c :: d ++ t) =
        some ((c :: d).length + (countUpTo (6 - (c :: d).length) isHexDigit t +
          terminatorLength (t.drop (countUpTo (6 - (c :: d).length) isHexDigit t)))) := by
      rw [List.cons_append, escapeTail?, if_pos (hdigits c List.mem_cons_self), ← List.cons_append]
      simp only [countUpTo_append_of_all hdigits hle, List.drop_length_add_append, Nat.add_assoc]
    rcases hblank with rfl | hblank
    · -- an escape without its blank: the lexer goes on over digits, and over a blank behind them
      have hdigits := trails_digits (6 - (c :: d).length) t
      have hcount := countUpTo_le (6 - (c :: d).length) isHexDigit t
      rw [List.append_nil, htail]
      generalize countUpTo (6 - (c :: d).length) isHexDigit t = m at hdigits hcount ⊢
      have hblank := terminatorLength_le (t.drop m)
      refine ⟨t.take m ++ (t.drop m).take (terminatorLength (t.drop m)), (t.drop m).drop (terminatorLength (t.drop m)),
        ?_, hdigits.append (trails_terminator _), ?_⟩
      · rw [List.append_assoc, List.take_append_drop, List.take_append_drop]
      · rw [List.length_append, List.length_take_of_le hcount, List.length_take_of_le hblank]
    · -- the blank of the escape ends the digits for the lexer too
      obtain ⟨y, r, hy, htrails, hbreak⟩ := break_reach hblank t
      refine ⟨y, r, hy, htrails, ?_⟩
      have hstop : countUpTo (6 - (c :: d).length) isHexDigit (blank ++ t) = 0 := by
        rcases hblank with rfl | ⟨e, he, rfl⟩
        · exact countUpTo_of_not (by decide) _ _
        · exact countUpTo_of_not (isHexDigit_of_isWhitespace he) _ _
      rw [List.append_assoc, htail, hstop, List.drop_zero, Nat.zero_add, terminatorLength_eq, hbreak,
        List.length_append, Nat.add_assoc]
  · refine ⟨[c], rfl, fun t => ⟨[], t, rfl, trails_nil, ?_⟩⟩
    rw [List.singleton_append, escapeTail?, if_neg (by simp [hx]), if_neg (by simp [hn])]
    rfl

theorem take_escape_mem {r : Text} {n : Nat} (h : escapeTail? r = some n) : '\\' :: r.take n ∈ escape := by
  cases r with
  | nil => cases h
  | cons c r =>
    rw [mem_escape_iff]
    rw [escapeTail?] at h
    split at h
    · rename_i hc
      cases h
      exact .inl ⟨_, take_digits_mem hc r, _, take_terminatorLength_mem _, by rw [List.take_add]⟩
    · rename_i hc
      split at h
      · cases h
      · rename_i hn
        cases h
        exact .inr ⟨c, by simpa using hn, by simpa using hc, rfl⟩

/-! ## Runs -/

/-- An item of the language is read in one go, with nothing but trailing characters taken along behind it, and is one
character unless it starts with a backslash. What is read as an item is one of the language, or one of `last` that only
the end of the text makes an item. -/
structure Greedy (item : Item) (l last : Language Char) : Prop where
  reach {v : Text} : v ∈ l → ∃ c w, v = c :: w ∧
    ∀ t, ∃ y r, t = y ++ r ∧ Trails y ∧ item c (w ++ t) = some (w.length + y.length)
  single {c : Char} {w : Text} : c :: w ∈ l → c ≠ '\\' → w = []
  length_le {c : Char} {r : Text} {k : Nat} : item c r = some k → k ≤ r.length
  found {c : Char} {r : Text} {k : Nat} : item c r = some k → c :: r.take k ∈ l ∨ (r = [] ∧ [c] ∈ last)

namespace Greedy

variable {item : Item} {l last : Language Char}

/-- Characters without a backslash among them can be dropped from items: each is an item of its own. -/
theorem mem_star_of_append (h : Greedy item l last) {y u : Text} (hy : '\\' ∉ y) (hu : y ++ u ∈ KStar.kstar l) :
    u ∈ KStar.kstar l := by
  induction y with
  | nil => exact hu
  | cons c y ih =>
    rw [List.mem_cons, not_or] at hy
    rcases mem_star_iff.mp hu with hnil | ⟨v, hv, w, hw, heq⟩
    · cases hnil
    · obtain ⟨d, v', rfl, -⟩ := h.reach hv
      obtain ⟨rfl, hrest⟩ : d = c ∧ v' ++ w = y ++ u := List.cons_eq_cons.mp heq
      obtain rfl := h.single hv (Ne.symm hy.1)
      rw [List.nil_append] at hrest
      exact ih hy.2 (hrest ▸ hw)

/-- The run from a place among the trailing characters that an item has taken along, or behind them, against items that
the grammar has there: it gets at least as far, and goes on as a run does behind those items. -/
theorem run_behind (h : Greedy item l last) {y u t r : Text} (hy : Trails y) (hu : u ∈ KStar.kstar l)
    (heq : u ++ t = y ++ r) :
    ∃ z q, t = z ++ q ∧ Trails z ∧ y.length + runLength item r = u.length + z.length + runLength item q := by
  induction hn : u.length using Nat.strongRecOn generalizing y u r with
  | _ n ih =>
    rcases List.append_eq_append_iff.mp heq with ⟨z, rfl, rfl⟩ | ⟨w, rfl, rfl⟩
    · -- the items end among the trailing characters
      exact ⟨z, r, rfl, hy.of_append, by rw [List.length_append, hn]⟩
    · rcases mem_star_iff.mp (h.mem_star_of_append hy.notMem_backslash hu) with rfl | ⟨v, hv, w', hw', rfl⟩
      · exact ⟨[], t, rfl, trails_nil, by simp [← hn]⟩
      · obtain ⟨c, v, rfl, hreach⟩ := h.reach hv
        obtain ⟨z, q, hzq, hz, hitem⟩ := hreach (w' ++ t)
        simp only [List.length_append, List.length_cons] at hn
        obtain ⟨z', q', ht, hz', hrun⟩ := ih w'.length (by omega) hz hw' hzq rfl
        refine ⟨z', q', ht, hz', ?_⟩
        have hle : v.length + z.length ≤ (v ++ (w' ++ t)).length := h.length_le hitem
        have hdrop : (v ++ (w' ++ t)).drop (v.length + z.length) = q := by
          rw [hzq, ← List.append_assoc, ← List.length_append, List.drop_left]
        rw [List.append_assoc, List.cons_append, runLength_cons_of_some hitem, Nat.min_eq_left hle, hdrop]
        omega

/-- Behind items of the grammar the run of the lexer goes on as a run does there, trailing characters apart. -/
theorem run (h : Greedy item l last) {u : Text} (hu : u ∈ KStar.kstar l) (t : Text) :
    ∃ z q, t = z ++ q ∧ Trails z ∧ runLength item (u ++ t) = u.length + z.length + runLength item q := by
  obtain ⟨z, q, ht, hz, hrun⟩ := h.run_behind trails_nil hu (r := u ++ t) rfl
  rw [List.length_nil, Nat.zero_add] at hrun
  exact ⟨z, q, ht, hz, hrun⟩

theorem le_run (h : Greedy item l last) {u : Text} (hu : u ∈ KStar.kstar l) (t : Text) :
    u.length ≤ runLength item (u ++ t) := by
  obtain ⟨z, q, -, -, hrun⟩ := h.run hu t
  omega

/-- Before a character that is neither a digit nor blank there is nothing to take along. -/
theorem run_cons (h : Greedy item l last) {u : Text} (hu : u ∈ KStar.kstar l) {c : Char} (t : Text)
    (hx : isHexDigit c = false) (hw : isWhitespace c = false) :
    runLength item (u ++ c :: t) = u.length + runLength item (c :: t) := by
  obtain ⟨z, q, ht, hz, hrun⟩ := h.run hu (c :: t)
  obtain rfl := hz.eq_nil ht hx hw
  rw [List.nil_append] at ht
  rw [hrun, ht, List.length_nil, Nat.add_zero]

/-- A run consists of items, the last of which may be one only because the text ends there. -/
theorem take_run (h : Greedy item l last) (s : Text) :
    s.take (runLength item s) ∈ KStar.kstar l ∨
      (s.take (runLength item s) ∈ KStar.kstar l * last ∧ s.drop (runLength item s) = []) := by
  induction hn : s.length using Nat.strongRecOn generalizing s with
  | _ n ih =>
    cases s with
    | nil => exact .inl (Language.nil_mem_kstar l)
    | cons c r =>
      cases hk : item c r with
      | none =>
        rw [runLength_cons_of_none hk]
        exact .inl (Language.nil_mem_kstar l)
      | some k =>
        rw [List.length_cons] at hn
        rw [runLength_cons_of_some hk, Nat.min_eq_left (h.length_le hk), Nat.add_assoc, Nat.add_comm 1,
          List.take_succ_cons, List.drop_succ_cons, List.take_add, ← List.drop_drop]
        rcases h.found hk with hitem | ⟨rfl, hlast⟩
        · rcases ih (r.drop k).length (by rw [List.length_drop]; omega) (r.drop k) rfl with hrest | ⟨hrest, hend⟩
          · exact .inl (append_mem_star hitem hrest)
          · obtain ⟨u, hu, e, he, heq⟩ := Language.mem_mul.mp hrest
            refine .inr ⟨?_, hend⟩
            rw [← heq, ← List.cons_append, ← List.append_assoc]
            exact Language.append_mem_mul (append_mem_star hitem hu) he
        · -- a last item stands at the end of the text
          refine .inr ⟨?_, by simp⟩
          simpa using Language.append_mem_mul (Language.nil_mem_kstar l) hlast

theorem take_run_mem (h : Greedy item l last) {s : Text} (hs : s.drop (runLength item s) ≠ [] ∨ last = 0) :
    s.take (runLength item s) ∈ KStar.kstar l := by
  rcases h.take_run s with hmem | ⟨hmem, hend⟩
  · exact hmem
  · rcases hs with hs | rfl
    · exact absurd hend hs
    · rw [mul_zero] at hmem
      exact absurd hmem (Language.notMem_zero _)

end Greedy

theorem greedy_charOrEscape {p : Char → Bool} (hp : p '\\' = false) :
    Greedy (charOrEscape p) (one p + escape) 0 where
  reach := by
    rintro v (⟨c, hc, rfl⟩ | hv)
    · exact ⟨c, [], rfl, fun t => ⟨[], t, rfl, trails_nil, by rw [charOrEscape, if_pos hc]; rfl⟩⟩
    · obtain ⟨w, rfl, hreach⟩ := escape_reach hv
      refine ⟨'\\', w, rfl, fun t => ?_⟩
      obtain ⟨y, r, ht, hy, htail⟩ := hreach t
      refine ⟨y, r, ht, hy, ?_⟩
      rw [charOrEscape, if_neg (by simp [hp]), if_pos (by rfl), htail]
  single := by
    rintro c w (⟨d, -, heq⟩ | hv) hc
    · cases heq
      rfl
    · obtain ⟨v, heq, -⟩ := escape_reach hv
      cases heq
      exact absurd rfl hc
  length_le := charOrEscape_le
  found := by
    intro c r k h
    unfold charOrEscape at h
    split at h
    · rename_i hc
      cases h
      exact .inl (.inl ⟨c, hc, rfl⟩)
    · split at h
      · rename_i hb
        obtain rfl := beq_iff_eq.mp hb
        exact .inl (.inr (take_escape_mem h))
      · cases h

end CssLexer.Grammar
