/-
  CssLexer.Proofs.Likeness — texts that the lexer cannot tell apart, and the runs in them.

  A `Likeness` says which characters may stand for each other, and whether a line feed may stand for a carriage return
  with its line feed. Characters that differ have to be starts of names, and have to play the same part in hexadecimal
  digits and in keywords; no other class of the grammar tells starts of names apart. Two texts are `Alike` if they
  correspond part by part, and `Cut s m t n` says that their first `m` and `n` characters do so, and the rests.

  Proved:
  - `Cut.add`: cuts behind cuts add up, as the lengths of parts of a lexeme do.
  - `cut_countWhile`, `countUpTo_alike`, `cut_breakLength`: counts end at corresponding places.
  - `cut_runLength`: so do runs of items that like texts have alike, and these are all items of the grammar.
-/

import CssLexer.Proofs.Lookahead
import Mathlib.Data.Option.Basic

namespace CssLexer

/-- Which characters may stand for each other, and whether a line feed may stand for a carriage return with its line
feed. Where it may, no carriage return is like another character, itself included. -/
structure Likeness where
  like : Char → Char → Prop
  joins : Prop
  eq_or_isNameStart {c d : Char} : like c d → c = d ∨ isNameStart c = true ∧ isNameStart d = true
  isHexDigit_eq {c d : Char} : like c d → isHexDigit c = isHexDigit d
  isLetterOf_eq {c d : Char} : like c d → ∀ lower ∈ ['u', 'r', 'l'], isLetterOf lower c = isLetterOf lower d
  not_return (d : Char) : joins → ¬ like '\r' d

/-- A character that starts no name and is no part of a line end, so that it is like itself alone. -/
def Plain (x : Char) : Prop := isNameStart x = false ∧ x ≠ '\r' ∧ x ≠ '\n'

instance (x : Char) : Decidable (Plain x) := inferInstanceAs (Decidable (_ ∧ _ ∧ _))

theorem forall_plain {u : Text} (h : (u.all fun x => decide (Plain x)) = true) : ∀ x ∈ u, Plain x := by
  simpa using h

namespace Likeness

variable {L : Likeness} {c d x : Char} {r r' s t : Text} {m n : Nat} {p : Char → Bool}

/-! ## Classes -/

/-- A class that does not tell like characters apart, nor the two characters of a line end. -/
structure Class (L : Likeness) (p : Char → Bool) : Prop where
  eq {c d : Char} : L.like c d → p c = p d
  line : p '\r' = p '\n'

theorem class_of_isNameStart {b : Bool} (h : ∀ c, isNameStart c = true → p c = b) (hline : p '\r' = p '\n') :
    L.Class p := by
  refine ⟨?_, hline⟩
  intro c d hcd
  rcases L.eq_or_isNameStart hcd with rfl | ⟨hc, hd⟩
  · rfl
  · rw [h c hc, h d hd]

theorem class_isWhitespace : L.Class isWhitespace :=
  class_of_isNameStart (fun _ h => (classes_of_isNameStart h).1) rfl

theorem class_isNewline : L.Class isNewline :=
  class_of_isNameStart (fun _ h => (classes_of_isNameStart h).2.1) rfl

theorem class_isQuote : L.Class isQuote :=
  class_of_isNameStart (fun _ h => (classes_of_isNameStart h).2.2.1) rfl

theorem class_isDigit : L.Class isDigit :=
  class_of_isNameStart (fun _ h => (classes_of_isNameStart h).2.2.2.1) rfl

theorem class_isUrlChar : L.Class isUrlChar :=
  class_of_isNameStart (fun _ h => (classes_of_isNameStart h).2.2.2.2) (by decide)

theorem class_isNameStart : L.Class isNameStart := class_of_isNameStart (fun _ h => h) (by decide)

theorem class_isNameChar : L.Class isNameChar :=
  class_of_isNameStart (fun _ h => by rw [isNameChar, h, Bool.true_or, Bool.true_or]) (by decide)

theorem class_isHexDigit : L.Class isHexDigit := ⟨L.isHexDigit_eq, by decide⟩

theorem class_isLetterOf {lower : Char} (h : lower ∈ ['u', 'r', 'l']) : L.Class (isLetterOf lower) := by
  refine ⟨fun hcd => L.isLetterOf_eq hcd lower h, ?_⟩
  simp only [List.mem_cons, List.not_mem_nil, or_false] at h
  rcases h with rfl | rfl | rfl <;> decide

theorem class_beq (hx : Plain x) : L.Class (· == x) := by
  refine class_of_isNameStart (b := false) ?_ ?_
  · intro c hc
    rw [beq_eq_false_iff_ne]
    rintro rfl
    rw [hx.1] at hc
    cases hc
  · rw [beq_eq_false_iff_ne.mpr (Ne.symm hx.2.1), beq_eq_false_iff_ne.mpr (Ne.symm hx.2.2)]

theorem eq_iff_eq (h : L.like c d) (hx : isNameStart x = false) : c = x ↔ d = x := by
  rcases L.eq_or_isNameStart h with rfl | ⟨hc, hd⟩
  · rfl
  · constructor
    · rintro rfl
      rw [hx] at hc
      cases hc
    · rintro rfl
      rw [hx] at hd
      cases hd

theorem plain_of_isQuote (h : isQuote c = true) : Plain c := by
  unfold isQuote at h
  rw [Bool.or_eq_true, beq_iff_eq, beq_iff_eq] at h
  rcases h with rfl | rfl <;> decide

/-! ## Like texts -/

/-- Two texts that correspond part by part. -/
inductive Alike (L : Likeness) : Text → Text → Prop
  | nil : Alike L [] []
  | char {c d : Char} {s t : Text} : L.like c d → Alike L s t → Alike L (c :: s) (d :: t)
  | line {s t : Text} : L.joins → Alike L s t → Alike L ('\r' :: '\n' :: s) ('\n' :: t)

/-- Two texts that correspond part by part, and the lengths of parts that correspond at their starts. -/
inductive Cut (L : Likeness) : Text → Nat → Text → Nat → Prop
  | zero {s t : Text} : L.Alike s t → Cut L s 0 t 0
  | char {c d : Char} {s t : Text} {m n : Nat} : L.like c d → Cut L s m t n → Cut L (c :: s) (1 + m) (d :: t) (1 + n)
  | line {s t : Text} {m n : Nat} : L.joins → Cut L s m t n → Cut L ('\r' :: '\n' :: s) (2 + m) ('\n' :: t) (1 + n)

theorem Cut.le (h : L.Cut s m t n) : m ≤ s.length ∧ n ≤ t.length := by
  induction h with
  | zero => exact ⟨Nat.zero_le _, Nat.zero_le _⟩
  | char _ _ ih =>
    simp only [List.length_cons]
    omega
  | line _ _ ih =>
    simp only [List.length_cons]
    omega

theorem Cut.eq_zero_iff (h : L.Cut s m t n) : m = 0 ↔ n = 0 := by
  cases h with
  | zero => rfl
  | char => simp
  | line => simp

theorem drop_two_add (a b : Char) (r : Text) (k : Nat) : (a :: b :: r).drop (2 + k) = r.drop k := by
  rw [Nat.add_comm]
  rfl

theorem Cut.front (h : L.Cut s m t n) : L.Alike (s.take m) (t.take n) := by
  induction h with
  | zero => exact .nil
  | char hc _ ih =>
    rw [Nat.add_comm, Nat.add_comm 1]
    exact .char hc ih
  | line hj _ ih =>
    rw [Nat.add_comm, Nat.add_comm 1]
    exact .line hj ih

theorem Cut.rest (h : L.Cut s m t n) : L.Alike (s.drop m) (t.drop n) := by
  induction h with
  | zero h => exact h
  | char _ _ ih => rwa [drop_one_add, drop_one_add]
  | line _ _ ih => rwa [drop_two_add, drop_one_add]

theorem Cut.add {i j : Nat} (h : L.Cut s m t n) (h' : L.Cut (s.drop m) i (t.drop n) j) : L.Cut s (m + i) t (n + j) := by
  induction h with
  | zero =>
    rw [Nat.zero_add, Nat.zero_add]
    exact h'
  | char hc _ ih =>
    rw [drop_one_add, drop_one_add] at h'
    rw [Nat.add_assoc, Nat.add_assoc]
    exact .char hc (ih h')
  | line hj _ ih =>
    rw [drop_two_add, drop_one_add] at h'
    rw [Nat.add_assoc, Nat.add_assoc]
    exact .line hj (ih h')

theorem Alike.append {u v : Text} (h : L.Alike s t) (h' : L.Alike u v) :
    L.Alike (s ++ u) (t ++ v) := by
  induction h with
  | nil => exact h'
  | char hc _ ih => exact .char hc ih
  | line hj _ ih => exact .line hj ih

theorem Cut.one (hc : L.like c d) (h : L.Alike r r') : L.Cut (c :: r) 1 (d :: r') 1 := .char hc (.zero h)

/-- A plain character starts both texts, or neither. -/
theorem Alike.mark (h : L.Alike s t) (hx : Plain x) :
    (∃ r r', s = x :: r ∧ t = x :: r' ∧ L.Alike r r' ∧ L.Cut s 1 t 1) ∨ (s.head? ≠ some x ∧ t.head? ≠ some x) := by
  cases h with
  | nil => exact Or.inr ⟨by simp, by simp⟩
  | char hc hr =>
    rename_i c d r r'
    by_cases hcx : c = x
    · left
      have hdx := (eq_iff_eq hc hx.1).mp hcx
      subst hcx hdx
      exact ⟨r, r', rfl, rfl, hr, .one hc hr⟩
    · right
      have hdx := mt (eq_iff_eq hc hx.1).mpr hcx
      rw [List.head?_cons, List.head?_cons, Ne, Option.some_inj, Ne, Option.some_inj]
      exact ⟨hcx, hdx⟩
  | line =>
    right
    rw [List.head?_cons, List.head?_cons, Ne, Option.some_inj, Ne, Option.some_inj]
    exact ⟨Ne.symm hx.2.1, Ne.symm hx.2.2⟩

theorem Alike.marks {u : Text} (hu : ∀ x ∈ u, Plain x) (h : L.Alike s t) :
    (∃ r r', s = u ++ r ∧ t = u ++ r' ∧ L.Alike r r' ∧ L.Cut s u.length t u.length) ∨ (¬ u <+: s ∧ ¬ u <+: t) := by
  induction u generalizing s t with
  | nil => exact Or.inl ⟨s, t, rfl, rfl, h, .zero h⟩
  | cons x u ih =>
    rcases h.mark (hu x List.mem_cons_self) with ⟨r, r', rfl, rfl, hr, hcut⟩ | ⟨hs, ht⟩
    · rcases ih (fun y hy => hu y (List.mem_cons_of_mem x hy)) hr with ⟨v, v', rfl, rfl, hv, hcut'⟩ | ⟨hr, hr'⟩
      · refine Or.inl ⟨v, v', rfl, rfl, hv, ?_⟩
        rw [List.length_cons, Nat.add_comm]
        exact hcut.add hcut'
      · right
        rw [List.prefix_cons_inj, List.prefix_cons_inj]
        exact ⟨hr, hr'⟩
    · right
      constructor
      · rintro ⟨v, rfl⟩
        exact hs rfl
      · rintro ⟨v, rfl⟩
        exact ht rfl

/-! ## Counts -/

theorem countWhile_cons (p : Char → Bool) (c : Char) (r : Text) :
    countWhile p (c :: r) = if p c then 1 + countWhile p r else 0 := by
  unfold countWhile
  rw [List.takeWhile_cons]
  split
  · rw [List.length_cons, Nat.add_comm]
  · rfl

theorem countUpTo_cons (n : Nat) (p : Char → Bool) (c : Char) (r : Text) :
    countUpTo (n + 1) p (c :: r) = if p c then 1 + countUpTo n p r else 0 := countWhile_cons p c (r.take n)

theorem cut_countWhile (hp : L.Class p) (h : L.Alike s t) : L.Cut s (countWhile p s) t (countWhile p t) := by
  induction h with
  | nil => exact .zero .nil
  | char hc hr ih =>
    rw [countWhile_cons, countWhile_cons, hp.eq hc]
    split
    · exact .char hc ih
    · exact .zero (.char hc hr)
  | line hj hr ih =>
    rw [countWhile_cons, countWhile_cons, countWhile_cons, hp.line]
    split
    · rw [← Nat.add_assoc]
      exact .line hj ih
    · exact .zero (.line hj hr)

/-- Counts that no line end has a part in are even the same. -/
theorem countUpTo_alike (hp : L.Class p) (hr : p '\r' = false) (k : Nat) (h : L.Alike s t) :
    countUpTo k p t = countUpTo k p s ∧ L.Cut s (countUpTo k p s) t (countUpTo k p s) := by
  induction k generalizing s t with
  | zero => exact ⟨rfl, .zero h⟩
  | succ k ih =>
    cases h with
    | nil => exact ⟨rfl, .zero .nil⟩
    | char hc hr =>
      obtain ⟨heq, hcut⟩ := ih hr
      rw [countUpTo_cons, countUpTo_cons, ← hp.eq hc, heq]
      split
      · exact ⟨rfl, .char hc hcut⟩
      · exact ⟨rfl, .zero (.char hc hr)⟩
    | line hj h =>
      have hn : p '\n' = false := hp.line ▸ hr
      rw [countUpTo_cons, countUpTo_cons, hr, hn]
      exact ⟨rfl, .zero (.line hj h)⟩

/-- Where a carriage return with its line feed counts as one, it counts as the line feed does. -/
theorem cut_breakLength (hp : L.Class p) (hn : p '\n' = true) (h : L.Alike s t) :
    L.Cut s (breakLength p s) t (breakLength p t) := by
  cases h with
  | nil => exact .zero .nil
  | @line s t hj h =>
    have hlf : breakLength p ('\n' :: t) = 1 := (breakLength_cons (by simp)).trans (if_pos hn)
    rw [hlf]
    exact .line hj (.zero h)
  | @char c d r r' hc hr =>
    by_cases hbreak : c = '\r' ∧ r.head? = some '\n'
    · -- neither of the two starts a name, so the same two are in the other text
      obtain ⟨rfl, hhead⟩ := hbreak
      have hd := (eq_iff_eq hc (by decide)).mp rfl
      subst hd
      cases hr with
      | nil => cases hhead
      | line => cases hhead
      | @char c' d' _ _ hc' hr =>
        have hc'' : c' = '\n' := by simpa using hhead
        have hd' := (eq_iff_eq hc' (by decide)).mp hc''
        subst hc'' hd'
        exact .char hc (.one hc' hr)
    · have hbreak' : ¬ (d = '\r' ∧ r'.head? = some '\n') := by
        rintro ⟨hd, hhead⟩
        have hcr := (eq_iff_eq hc (by decide)).mpr hd
        cases hr with
        | nil => cases hhead
        | line hj => exact L.not_return d hj (hcr ▸ hc)
        | @char c' d' _ _ hc' _ =>
          have hd' : d' = '\n' := by simpa using hhead
          have hc'' := (eq_iff_eq hc' (by decide)).mpr hd'
          exact hbreak ⟨hcr, by rw [hc'']; rfl⟩
      rw [breakLength_cons hbreak, breakLength_cons hbreak', hp.eq hc]
      split
      · exact .one hc hr
      · exact .zero (.char hc hr)

/-! ## Escapes and runs -/

/-- Two lengths that may be missing: both are, or they belong to parts that correspond. -/
def Cuts (L : Likeness) (s t : Text) : Option Nat → Option Nat → Prop := Option.Rel fun m n => L.Cut s m t n

theorem escapeTail?_alike (h : L.Alike s t) : L.Cuts s t (escapeTail? s) (escapeTail? t) := by
  cases h with
  | nil => exact .none
  | line hj h =>
    rw [escapeTail?, escapeTail?, if_neg (by decide), if_pos (by decide), if_neg (by decide), if_pos (by decide)]
    exact .none
  | @char c d r r' hc hr =>
    rw [escapeTail?, escapeTail?, ← class_isHexDigit.eq hc, ← class_isNewline.eq hc]
    split
    · obtain ⟨heq, hcut⟩ := countUpTo_alike class_isHexDigit (by decide) 6 (.char hc hr)
      simp only [heq, terminatorLength_eq]
      exact .some (hcut.add (cut_breakLength class_isWhitespace rfl hcut.rest))
    · split
      · exact .none
      · exact .some (.one hc hr)

theorem escapeReach_alike (h : L.Alike s t) : L.Cut s (escapeReach s) t (escapeReach t) := by
  have htail := escapeTail?_alike h
  generalize hs : escapeTail? s = o, ht : escapeTail? t = o' at htail
  cases htail with
  | some hcut => rwa [escapeReach_of_some hs, escapeReach_of_some ht]
  | none =>
    rw [escapeReach_of_none hs, escapeReach_of_none ht, newlineLength_eq, newlineLength_eq]
    exact cut_breakLength class_isNewline rfl h

/-- An item that like texts have alike, and which takes in both characters of a line end as it takes in the last. -/
structure Fits (L : Likeness) (item : Item) : Prop where
  char {c d : Char} {r r' : Text} : L.like c d → L.Alike r r' → L.Cuts r r' (item c r) (item d r')
  line (r r' : Text) : (item '\r' ('\n' :: r) = none ∧ item '\n' r' = none) ∨
    (item '\r' ('\n' :: r) = some 0 ∧ item '\n' r = some 0 ∧ item '\n' r' = some 0)

theorem cut_runLength {item : Item} (hi : L.Fits item) (h : L.Alike s t) :
    L.Cut s (runLength item s) t (runLength item t) := by
  -- an item may take many characters, so the induction is on the length of the text
  induction hn : s.length using Nat.strongRecOn generalizing s t with
  | _ n ih =>
    cases h with
    | nil => exact .zero .nil
    | @line r r' hj hr =>
      -- the run takes both characters of the line end, or stops before the first
      rcases hi.line r r' with ⟨hs, ht⟩ | ⟨hcr, hlf, ht⟩
      · rw [runLength_cons_of_none hs, runLength_cons_of_none ht]
        exact .zero (.line hj hr)
      · have hrest := ih r.length (by simp only [List.length_cons] at hn; omega) hr rfl
        rw [runLength_cons_of_some hcr, runLength_cons_of_some ht]
        simp only [Nat.zero_min, List.drop_zero]
        rw [runLength_cons_of_some hlf]
        simp only [Nat.zero_min, List.drop_zero, Nat.add_zero, ← Nat.add_assoc]
        exact .line hj hrest
    | @char c d r r' hc hr =>
      have hitem := hi.char hc hr
      generalize hs : item c r = o, ht : item d r' = o' at hitem
      cases hitem with
      | none =>
        rw [runLength_cons_of_none hs, runLength_cons_of_none ht]
        exact .zero (.char hc hr)
      | @some j k hcut =>
        have hrest := ih (r.drop j).length (by rw [List.length_drop]; simp only [List.length_cons] at hn; omega)
          hcut.rest rfl
        rw [runLength_cons_of_some hs, runLength_cons_of_some ht, Nat.min_eq_left hcut.le.1,
          Nat.min_eq_left hcut.le.2, Nat.add_assoc, Nat.add_assoc]
        exact .char hc (hcut.add hrest)

theorem fits_charOrEscape (hp : L.Class p) (hr : p '\r' = false) : L.Fits (charOrEscape p) := by
  constructor
  · intro c d r r' hc hr
    have hb : (c == '\\') = (d == '\\') := (class_beq (by decide)).eq hc
    rw [charOrEscape, charOrEscape, hp.eq hc, hb]
    split
    · exact .some (.zero hr)
    · split
      · exact escapeTail?_alike hr
      · exact .none
  · intro r r'
    left
    rw [charOrEscape, charOrEscape, ← hp.line, hr]
    exact ⟨rfl, rfl⟩

theorem fits_quotedItem {quote : Char} (hq : isQuote quote = true) : L.Fits (quotedItem quote) := by
  have hplain := plain_of_isQuote hq
  constructor
  · intro c d r r' hc hr
    have hquote : (c == quote) = (d == quote) := (class_beq hplain).eq hc
    have hb : (c == '\\') = (d == '\\') := (class_beq (by decide)).eq hc
    rw [quotedItem_eq, quotedItem_eq, hquote, hb, class_isNewline.eq hc]
    split
    · exact .none
    · split
      · exact .some (escapeReach_alike hr)
      · split
        · exact .none
        · exact .some (.zero hr)
  · intro r r'
    left
    rw [quotedItem_eq, quotedItem_eq]
    simp [isNewline]

theorem fits_commentItem : L.Fits commentItem := by
  constructor
  · intro c d r r' hc hr
    have hstar : (c == '*') = (d == '*') := (class_beq (by decide)).eq hc
    have hslash : (r.head? == some '/') = (r'.head? == some '/') := by
      rcases hr.mark (show Plain '/' by decide) with ⟨_, _, rfl, rfl, _⟩ | ⟨hs, ht⟩
      · rfl
      · rw [beq_eq_false_iff_ne.mpr hs, beq_eq_false_iff_ne.mpr ht]
    rw [commentItem, commentItem, hstar, hslash]
    split
    · exact .none
    · exact .some (.zero hr)
  · intro r r'
    right
    simp [commentItem]

end Likeness

end CssLexer
