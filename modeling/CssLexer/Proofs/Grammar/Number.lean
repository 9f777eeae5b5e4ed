/-
  CssLexer.Proofs.Grammar.Number — numbers, and what is made of them, are as long as the grammar allows.

  The grammar may end a number at any of its digits, and before its fraction; the lexer takes all of it and looks for a
  percent sign or a unit behind that. Behind a number that is not the longest one there is a digit or a dot, and neither
  starts a percent sign or a unit. So what the grammar can put behind a shorter number is nothing, and the lexer misses
  no suffix by going on.

  Proved:
  - `numberLength?_append_of_mem`: behind a number of the grammar the lexer goes on only over a digit or a dot.
  - `isLongest_num_iff`: what is counted as a number is the longest one.
  - `findsLongest_numeric`: what is found is the longest beginning of the form number, percentage or dimension.
  - `numberLength?_of_split`: whichever way that beginning is cut into a number and a suffix, the number is the longest.
  - `numbers_longest`: so a lexeme is found exactly where a number is, it is the longest, and there is one way to cut it.
-/

import CssLexer.Proofs.Grammar.Name

namespace CssLexer

namespace Grammar

/-- What may stand behind a number, by the kind of the token. -/
def suffix : Kind → Language Char
  | .number => 1
  | .percentage => exactly ['%']
  | .dimension => ident
  | _ => 0

/-- The texts made of a number, by the kind of their token. -/
def numeric (k : Kind) : Language Char := num * suffix k

/-- The text `v` is the number `a` and behind it the suffix `b` of the kind `k`, and can be cut in no other way into a
number and a suffix of any kind. -/
structure SplitsOnly (v : Text) (k : Kind) (a b : Text) : Prop where
  append : a ++ b = v
  number : a ∈ num
  suffix : b ∈ suffix k
  only {k' : Kind} {a' b' : Text} : a' ++ b' = v → a' ∈ num → b' ∈ Grammar.suffix k' → k' = k ∧ a' = a ∧ b' = b

/-! ## Numbers -/

variable {a b d e r s t v w : Text} {k : Kind} {n : Nat}

theorem mem_num_iff :
    v ∈ num ↔ v ∈ digits ∨ ∃ d e, (∀ c ∈ d, isDigit c = true) ∧ e ∈ digits ∧ v = d ++ '.' :: e := by
  constructor
  · intro h
    rcases h with h | ⟨_, ⟨d, hd, _, rfl, rfl⟩, e, he, rfl⟩
    · exact .inl h
    · refine .inr ⟨d, e, ?_, he, by simp⟩
      rcases mem_optional.mp hd with rfl | hd
      · intro c hc
        cases hc
      · exact (mem_oneOrMore_one.mp hd).2
  · intro h
    rcases h with h | ⟨d, e, hd, he, rfl⟩
    · exact .inl h
    · have hdigits : d ∈ optional digits := by
        cases d with
        | nil => exact .inl rfl
        | cons c d => exact .inr (mem_oneOrMore_one.mpr ⟨List.cons_ne_nil c d, hd⟩)
      have hmem := Language.append_mem_mul (Language.append_mem_mul hdigits (mem_exactly (t := ['.']).mpr rfl)) he
      rw [List.append_assoc] at hmem
      exact .inr hmem

theorem fractionLength_of_mem (he : e ∈ digits) (t : Text) :
    fractionLength ('.' :: (e ++ t)) = 1 + e.length + countWhile isDigit t := by
  obtain ⟨hne, hall⟩ := mem_oneOrMore_one.mp he
  have hpos : 0 < e.length := List.length_pos_iff.mpr hne
  rw [fractionLength_eq, markedLength, if_pos rfl, countWhile_append_of_all hall, if_neg (by omega)]
  omega

/-- Behind a number of the grammar the lexer goes on only over a digit or a dot. -/
theorem numberLength?_append_of_mem (hv : v ∈ num) (t : Text) :
    ∃ k, numberLength? (v ++ t) = some (v.length + k) ∧ (k ≠ 0 → ∃ c ∈ t.head?, isDigit c = true ∨ c = '.') := by
  have hdigit : countWhile isDigit t ≠ 0 → ∃ c ∈ t.head?, isDigit c = true ∨ c = '.' := by
    intro h
    cases t with
    | nil => exact absurd rfl h
    | cons c t =>
      rw [Ne, countWhile_eq_zero_iff, List.head?_cons, Option.any_some, Bool.not_eq_false] at h
      exact ⟨c, rfl, .inl h⟩
  rcases mem_num_iff.mp hv with hd | ⟨d, e, hd, he, rfl⟩
  · obtain ⟨hne, hall⟩ := mem_oneOrMore_one.mp hd
    have hpos : 0 < v.length := List.length_pos_iff.mpr hne
    refine ⟨(numberLength? t).getD 0, ?_, ?_⟩
    · rw [numberLength?_eq, numberLength?_getD, countWhile_append_of_all hall, List.drop_length_add_append,
        if_neg (by omega), Nat.add_assoc]
    · intro h
      rw [numberLength?_getD] at h
      by_cases hcount : countWhile isDigit t = 0
      · rw [hcount, List.drop_zero, Nat.zero_add, Ne, fractionLength_eq_zero_iff, Bool.not_eq_false] at h
        unfold fractionOpens at h
        split at h
        · exact ⟨'.', rfl, .inr rfl⟩
        · cases h
      · exact hdigit hcount
  · refine ⟨countWhile isDigit t, ?_, hdigit⟩
    have hdot : countWhile isDigit ('.' :: (e ++ t)) = 0 := by
      rw [countWhile_eq_zero_iff]
      rfl
    rw [List.append_assoc, List.cons_append, numberLength?_eq, countWhile_append_of_all hd, hdot, Nat.add_zero,
      List.drop_left, fractionLength_of_mem he, if_neg (by omega), List.length_append, List.length_cons]
    congr 1
    omega

theorem numberLength?_of_mem (hv : v ∈ num) (ht : ∀ c ∈ t.head?, isDigit c = false ∧ c ≠ '.') :
    numberLength? (v ++ t) = some v.length := by
  obtain ⟨k, hk, hgoes⟩ := numberLength?_append_of_mem hv t
  by_cases hzero : k = 0
  · rw [hk, hzero, Nat.add_zero]
  · obtain ⟨c, hc, hdigit | hdot⟩ := hgoes hzero
    · have := (ht c hc).1
      simp [hdigit] at this
    · exact absurd hdot (ht c hc).2

theorem take_fraction_mem (h : fractionLength r ≠ 0) : ∃ e ∈ digits, r.take (fractionLength r) = '.' :: e := by
  rw [fractionLength_eq] at h ⊢
  exact take_markedLength_mem (fun _ => take_countWhile_mem) h

/-- What the lexer counts as a number is one. -/
theorem take_num_mem (h : numberLength? s = some n) : s.take n ∈ num := by
  rw [numberLength?_eq] at h
  split at h
  · cases h
  · rename_i hpos
    cases h
    rw [mem_num_iff]
    by_cases hf : fractionLength (s.drop (countWhile isDigit s)) = 0
    · left
      rw [hf, Nat.add_zero] at hpos ⊢
      exact take_countWhile_mem hpos
    · right
      obtain ⟨e, he, heq⟩ := take_fraction_mem hf
      exact ⟨_, e, fun _ => of_mem_take_countWhile, he, by rw [List.take_add, heq]⟩

theorem isLongest_num_iff : IsLongest num s n ↔ numberLength? s = some n := by
  have hreach {m : Nat} (hle : m ≤ s.length) (hm : s.take m ∈ num) : ∃ k, numberLength? s = some (m + k) := by
    obtain ⟨k, hk, -⟩ := numberLength?_append_of_mem hm (s.drop m)
    rw [List.take_append_drop, List.length_take_of_le hle] at hk
    exact ⟨k, hk⟩
  constructor
  · intro ⟨hle, hmem, hmax⟩
    obtain ⟨k, hk⟩ := hreach hle hmem
    have := hmax _ (numberLength?_le hk) (take_num_mem hk)
    rw [hk]
    congr 1
    omega
  · intro h
    refine ⟨numberLength?_le h, take_num_mem h, ?_⟩
    intro m hle hm
    obtain ⟨k, hk⟩ := hreach hle hm
    rw [h, Option.some_inj] at hk
    omega

theorem digits_of_dot {x y : Text} (h : x ++ '.' :: y ∈ num) : y ∈ digits := by
  have hdot {z : Text} (hz : ∀ c ∈ z, isDigit c = true) : '.' ∉ z := by
    intro hm
    have := hz _ hm
    revert this
    decide
  rcases mem_num_iff.mp h with hd | ⟨d, e, hd, he, heq⟩
  · exact absurd (List.mem_append_right x List.mem_cons_self) (hdot (mem_oneOrMore_one.mp hd).2)
  · obtain ⟨-, -, rfl⟩ :=
      (List.append_cons_inj_of_notMem (hdot hd) (hdot (mem_oneOrMore_one.mp he).2)).mp heq.symm
    exact he

/-! ## Suffixes -/

theorem ident_head {c : Char} (h : c :: w ∈ ident) : c = '-' ∨ isNameStart c = true ∨ c = '\\' := by
  obtain ⟨_, ⟨dash, hdash, st, hst, rfl⟩, u, -, heq⟩ := h
  rcases hdash with rfl | rfl
  · obtain ⟨d, st, rfl, -⟩ := greedy_nameStart.reach hst
    cases heq
    exact .inr (nameStart_head hst)
  · cases heq
    exact .inl rfl

/-- No suffix starts with a character that a number goes on with, and only a percent sign starts with that sign. -/
theorem suffix_head {c : Char} (h : c :: w ∈ suffix k) :
    (isDigit c = false ∧ c ≠ '.') ∧ (k = .dimension → c ≠ '%') := by
  unfold suffix at h
  split at h
  · cases h
  · cases h
    decide
  · rcases ident_head h with rfl | hstart | rfl
    · decide
    · have hne {d : Char} (hd : isNameStart d = false) : c ≠ d := by
        intro heq
        rw [heq, hd] at hstart
        cases hstart
      exact ⟨⟨(classes_of_isNameStart hstart).2.2.2.1, hne (by decide)⟩, fun _ => hne (by decide)⟩
    · decide
  · exact absurd h (Language.notMem_zero _)

/-- However a beginning is cut into a number and a suffix, and the suffix is not empty, the number is the longest one. -/
theorem numberLength?_of_suffix {c : Char} (ha : a ∈ num) (hw : c :: w ∈ suffix k) (t : Text) :
    numberLength? (a ++ (c :: w ++ t)) = some a.length := by
  apply numberLength?_of_mem ha
  intro d hd
  cases hd
  exact (suffix_head hw).1

theorem suffix_nil (h : [] ∈ suffix k) : k = .number := by
  unfold suffix at h
  split at h
  · rfl
  · cases h
  · obtain ⟨z, q, -, -, hident⟩ := ident_reach h []
    cases hident
  · exact absurd h (Language.notMem_zero _)

/-- A suffix that is not empty is what the lexer adds to the number, with as much of a name as follows. -/
theorem numberWith_of_suffix {c : Char} (hw : c :: w ∈ suffix k) (n : Nat) (t : Text) :
    n + (c :: w).length < (Lexeme.numberWith n (c :: w ++ t)).length ∨
      Lexeme.numberWith n (c :: w ++ t) = ⟨k, n + (c :: w).length⟩ := by
  have hhead := (suffix_head hw).2
  unfold suffix at hw
  split at hw
  · cases hw
  · cases hw
    exact .inr rfl
  · obtain ⟨z, q, -, -, hident⟩ := ident_reach hw t
    have hpercent : (c :: w ++ t).head? ≠ some '%' := by
      intro heq
      cases heq
      exact hhead rfl rfl
    rw [Lexeme.numberWith_of_ne hpercent, hident]
    simp only [Lexeme.mk.injEq, true_and]
    omega
  · exact absurd hw (Language.notMem_zero _)

/-! ## Lexemes -/

theorem lt_length_numberWith (n : Nat) (r : Text) :
    n < (Lexeme.numberWith n r).length ∨ Lexeme.numberWith n r = ⟨.number, n⟩ := by
  unfold Lexeme.numberWith
  split
  · exact .inl (Nat.lt_succ_self n)
  · split
    · rename_i unit hunit
      have := identLength?_pos hunit
      left
      show n < n + unit
      omega
    · exact .inr rfl

theorem findsLongest_numeric : FindsLongest Lexeme.numeric? numeric where
  sound := by
    intro s l h
    refine ⟨Production.lexeme?_length_le (p := .numeric) h, ?_⟩
    rw [Lexeme.numeric?_eq, Option.map_eq_some_iff] at h
    obtain ⟨n, hn, rfl⟩ := h
    have hnum := take_num_mem hn
    unfold Lexeme.numberWith
    split
    · rename_i r hr
      rw [List.take_add, hr]
      exact Language.append_mem_mul hnum (mem_exactly.mpr rfl)
    · split
      · rename_i unit hunit
        rw [List.take_add]
        exact Language.append_mem_mul hnum (take_ident_mem hunit)
      · rw [numeric, suffix, mul_one]
        exact hnum
  reach := by
    intro v k t hv
    obtain ⟨a, ha, w, hw, rfl⟩ := Language.mem_mul.mp hv
    cases w with
    | nil =>
      obtain rfl := suffix_nil hw
      obtain ⟨m, hm, -⟩ := numberLength?_append_of_mem ha t
      refine ⟨_, by rw [Lexeme.numeric?_eq, List.append_nil, hm, Option.map_some], ?_⟩
      rw [List.append_nil]
      rcases lt_length_numberWith (a.length + m) ((a ++ t).drop (a.length + m)) with hlt | heq
      · left
        omega
      · rw [heq]
        simp only [Lexeme.mk.injEq, true_and]
        omega
    | cons c w =>
      refine ⟨Lexeme.numberWith a.length (c :: w ++ t), ?_, ?_⟩
      · rw [Lexeme.numeric?_eq, List.append_assoc, numberLength?_of_suffix ha hw, Option.map_some, List.drop_left]
      · rw [List.length_append]
        exact numberWith_of_suffix hw a.length t

theorem numberLength?_of_split (h : Lexeme.numeric? s = some ⟨k, n⟩) (heq : a ++ b = s.take n) (ha : a ∈ num)
    {k' : Kind} (hb : b ∈ suffix k') : numberLength? s = some a.length := by
  have hs : a ++ (b ++ s.drop n) = s := by rw [← List.append_assoc, heq, List.take_append_drop]
  cases b with
  | nil =>
    obtain ⟨m, hm, -⟩ := numberLength?_append_of_mem ha ([] ++ s.drop n)
    rw [hs] at hm
    have hle : n ≤ s.length := (findsLongest_numeric.sound h).1
    have hlength := congrArg List.length heq
    rw [List.append_nil, List.length_take_of_le hle] at hlength
    -- the number cannot reach beyond the lexeme it is a part of
    rw [Lexeme.numeric?_eq, hm, Option.map_some, Option.some_inj] at h
    have hreach : a.length + m + _ ≤ n := h ▸ Lexeme.le_length_numberWith (a.length + m) (s.drop (a.length + m))
    rw [hm]
    congr 1
    omega
  | cons c b =>
    rw [← hs]
    exact numberLength?_of_suffix ha hb _

/-- What is found can be cut in one way, behind the longest number. -/
theorem splitsOnly_of_found (h : Lexeme.numeric? s = some ⟨k, n⟩) :
    ∃ a b, SplitsOnly (s.take n) k a b ∧ IsLongest num s a.length := by
  obtain ⟨hmem, hlongest⟩ := findsLongest_numeric.eq_some_iff.mp h
  obtain ⟨a, ha, b, hb, heq⟩ := hmem
  have hnumber := numberLength?_of_split h heq ha hb
  refine ⟨a, b, ⟨heq, ha, hb, ?_⟩, isLongest_num_iff.mpr hnumber⟩
  intro k' a' b' heq' ha' hb'
  have hkind := findsLongest_numeric.eq_some_iff.mpr ⟨⟨a', ha', b', hb', heq'⟩, hlongest⟩
  rw [h] at hkind
  have hlength := numberLength?_of_split h heq' ha' hb'
  rw [hnumber, Option.some_inj] at hlength
  obtain ⟨rfl, rfl⟩ := List.append_inj (heq'.trans heq.symm) hlength.symm
  cases hkind
  exact ⟨rfl, rfl, rfl⟩

end Grammar

/-- A lexeme is found exactly where a number is. It is the longest beginning of the form number, number with a percent
sign or number with an identifier, and has the kind of that form. There is one way to cut it into a number and a suffix:
the number is the longest at the start of the text, and a dot in it has digits behind it. -/
theorem numbers_longest (s : Text) :
    (Lexeme.numeric? s = none ↔ ∀ n, s.take n ∉ Grammar.num) ∧
    (∀ k n, Lexeme.numeric? s = some ⟨k, n⟩ ↔
      s.take n ∈ Grammar.numeric k ∧ Grammar.IsLongest (Grammar.anyOf Grammar.numeric) s n) ∧
    ∀ k n, Lexeme.numeric? s = some ⟨k, n⟩ → ∃ a b, Grammar.SplitsOnly (s.take n) k a b ∧
      Grammar.IsLongest Grammar.num s a.length ∧ ∀ x y, a = x ++ '.' :: y → y ∈ Grammar.digits := by
  refine ⟨?_, fun _ _ => Grammar.findsLongest_numeric.eq_some_iff, ?_⟩
  · constructor
    · intro hnone n hn
      obtain ⟨m, hm, -⟩ := Grammar.numberLength?_append_of_mem hn (s.drop n)
      rw [List.take_append_drop] at hm
      rw [Lexeme.numeric?_eq, hm] at hnone
      cases hnone
    · intro hnone
      cases hm : numberLength? s with
      | none => rw [Lexeme.numeric?_eq, hm, Option.map_none]
      | some m => exact absurd (Grammar.take_num_mem hm) (hnone m)
  · intro k n h
    obtain ⟨a, b, hsplit, hlongest⟩ := Grammar.splitsOnly_of_found h
    refine ⟨a, b, hsplit, hlongest, ?_⟩
    intro x y hdot
    exact Grammar.digits_of_dot (hdot ▸ hsplit.number)

end CssLexer
