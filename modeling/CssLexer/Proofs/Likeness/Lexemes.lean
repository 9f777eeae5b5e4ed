/-
  CssLexer.Proofs.Likeness.Lexemes — like texts fall to the same productions.

  In two like texts a production finds nothing, or lexemes of one kind which end at corresponding places. Each count in
  a lexeme contributes one `Cut`, and a character that decides the kind is plain, so it stands in both texts or in
  neither. Only the single character is not told by its class: it has to be no start of a name, and where it is one, an
  identifier comes first.

  Proved:
  - `comment?_alike` to `delim?_alike`: one lemma for each production.
  - `lexeme?_alike`, `select?_alike`: the same for all of them, and for the production that a text falls to.
-/

import CssLexer.Proofs.Extension
import CssLexer.Proofs.Likeness

namespace CssLexer

namespace Likeness

variable {L : Likeness} {c d x : Char} {r r' s t : Text} {m n : Nat} {p : Char → Bool}

/-! ## Names, numbers and strings -/

theorem cut_nameLength (h : L.Alike s t) : L.Cut s (nameLength s) t (nameLength t) :=
  cut_runLength (fits_charOrEscape class_isNameChar (by decide)) h

theorem startedNameLength?_alike (h : L.Alike s t) : L.Cuts s t (startedNameLength? s) (startedNameLength? t) := by
  cases h with
  | nil => exact .none
  | line => exact .none
  | @char c d r r' hc hr =>
    have hitem := (fits_charOrEscape class_isNameStart (by decide)).char hc hr
    rw [startedNameLength?, startedNameLength?]
    generalize charOrEscape isNameStart c r = o, charOrEscape isNameStart d r' = o' at hitem ⊢
    cases hitem with
    | none => exact .none
    | some hcut =>
      have hname := hcut.add (cut_nameLength hcut.rest)
      rw [Option.map_some, Option.map_some, Nat.add_assoc, Nat.add_assoc]
      exact .some (.char hc hname)

theorem identLength?_of_head? (h : s.head? ≠ some '-') : identLength? s = startedNameLength? s := by
  cases s with
  | nil => rfl
  | cons c r => exact identLength?_cons_of_ne (by simpa using h) r

theorem identLength?_alike (h : L.Alike s t) : L.Cuts s t (identLength? s) (identLength? t) := by
  rcases h.mark (show Plain '-' by decide) with ⟨r, r', rfl, rfl, hr, hdash⟩ | ⟨hs, ht⟩
  · have hname := startedNameLength?_alike hr
    rw [identLength?, identLength?]
    generalize startedNameLength? r = o, startedNameLength? r' = o' at hname ⊢
    cases hname with
    | none => exact .none
    | some hcut => exact .some (hdash.add hcut)
  · rw [identLength?_of_head? hs, identLength?_of_head? ht]
    exact startedNameLength?_alike h

theorem cut_markedLength {mark : Char} {count : Text → Nat} (hmark : Plain mark)
    (hcount : ∀ {s t : Text}, L.Alike s t → L.Cut s (count s) t (count t)) (h : L.Alike s t) :
    L.Cut s (markedLength mark count s) t (markedLength mark count t) := by
  have hzero {s : Text} (hs : s.head? ≠ some mark) : markedLength mark count s = 0 := by
    cases s with
    | nil => rfl
    | cons c r => exact if_neg (by simpa using hs)
  rcases h.mark hmark with ⟨r, r', rfl, rfl, hr, hcut⟩ | ⟨hs, ht⟩
  · have hrest := hcount hr
    rw [markedLength, markedLength, if_pos rfl, if_pos rfl]
    by_cases h0 : count r = 0
    · rw [if_pos h0, if_pos (hrest.eq_zero_iff.mp h0)]
      exact .zero h
    · rw [if_neg h0, if_neg (mt hrest.eq_zero_iff.mpr h0)]
      exact hcut.add hrest
  · rw [hzero hs, hzero ht]
    exact .zero h

theorem cut_upperBoundLength (h : L.Alike s t) : L.Cut s (upperBoundLength s) t (upperBoundLength t) := by
  rw [upperBoundLength_eq, upperBoundLength_eq]
  refine cut_markedLength (by decide) ?_ h
  intro s t h
  obtain ⟨heq, hcut⟩ := countUpTo_alike class_isHexDigit (by decide) 6 h
  rwa [heq]

theorem numberLength?_alike (h : L.Alike s t) : L.Cuts s t (numberLength? s) (numberLength? t) := by
  have hdigits {s t : Text} (h : L.Alike s t) := cut_countWhile (L := L) class_isDigit h
  have hcut := hdigits h
  have hfraction := cut_markedLength (show Plain '.' by decide) hdigits hcut.rest
  rw [← fractionLength_eq, ← fractionLength_eq] at hfraction
  have hnumber := hcut.add hfraction
  rw [numberLength?_eq, numberLength?_eq]
  split
  · rename_i h0
    rw [if_pos (hnumber.eq_zero_iff.mp h0)]
    exact .none
  · rename_i h0
    rw [if_neg (mt hnumber.eq_zero_iff.mpr h0)]
    exact .some hnumber

theorem quotation?_alike (h : L.Alike s t) :
    Option.Rel (fun a b => L.Cut s a.1 t b.1 ∧ a.2 = b.2) (quotation? s) (quotation? t) := by
  cases h with
  | nil => exact .none
  | line => exact .none
  | @char c d r r' hc hr =>
    by_cases hq : isQuote c = true
    · have hplain := plain_of_isQuote hq
      have hd : d = c := (eq_iff_eq hc hplain.1).mp rfl
      subst hd
      have hbody := cut_runLength (fits_quotedItem hq) hr
      rw [quotation?_cons hq, quotation?_cons hq]
      rcases hbody.rest.mark hplain with ⟨u, u', hu, hu', _, hclosed⟩ | ⟨hs, ht⟩
      · rw [hu, hu', List.head?_cons, List.head?_cons, if_pos rfl, if_pos rfl, Nat.add_assoc, Nat.add_assoc]
        exact .some ⟨.char hc (hbody.add hclosed), rfl⟩
      · rw [if_neg hs, if_neg ht]
        exact .some ⟨.char hc hbody, rfl⟩
    · have hq' : ¬ isQuote d = true := by rwa [← class_isQuote.eq hc]
      rw [quotation?, quotation?, if_neg hq, if_neg hq']
      exact .none

/-! ## Productions -/

/-- Two lexemes of one kind that take parts of like texts which correspond. -/
structure Matches (L : Likeness) (s t : Text) (l m : Lexeme) : Prop where
  kind : l.kind = m.kind
  cut : L.Cut s l.length t m.length

/-- What is found in two like texts: nothing in both, or lexemes that match. -/
def Finds (L : Likeness) (s t : Text) : Option Lexeme → Option Lexeme → Prop := Option.Rel (L.Matches s t)

theorem Alike.eq_nil_iff (h : L.Alike s t) : s = [] ↔ t = [] := by
  cases h <;> simp

theorem comment?_alike (h : L.Alike s t) : L.Finds s t (Lexeme.comment? s) (Lexeme.comment? t) := by
  rcases h.marks (u := ['/', '*']) (forall_plain (by decide)) with ⟨r, r', rfl, rfl, hr, hopening⟩ | ⟨hs, ht⟩
  · have hbody := cut_runLength fits_commentItem hr
    have hcut : L.Cut _ (2 + _) _ (2 + _) := hopening.add hbody
    simp only [List.cons_append, List.nil_append, Lexeme.comment?_cons] at hcut ⊢
    by_cases hend : r.drop (runLength commentItem r) = []
    · rw [if_pos hend, if_pos (hbody.rest.eq_nil_iff.mp hend)]
      exact .some ⟨rfl, hcut⟩
    · have hend' := mt hbody.rest.eq_nil_iff.mpr hend
      obtain ⟨u, hu⟩ := (drop_commentBody r).resolve_left hend
      rw [if_neg hend, if_neg hend']
      rcases hbody.rest.marks (u := ['*', '/']) (forall_plain (by decide)) with ⟨_, _, _, _, _, hclosing⟩ | ⟨hs, -⟩
      · exact .some ⟨rfl, hopening.add (hbody.add hclosing)⟩
      · exact absurd ⟨u, hu.symm⟩ hs
  · rw [Lexeme.comment?_eq_none hs, Lexeme.comment?_eq_none ht]
    exact .none

theorem space?_alike (h : L.Alike s t) : L.Finds s t (Lexeme.space? s) (Lexeme.space? t) := by
  have hblanks := cut_countWhile class_isWhitespace h
  rw [Lexeme.space?_eq, Lexeme.space?_eq]
  split
  · rename_i h0
    rw [if_pos (hblanks.eq_zero_iff.mp h0)]
    exact .none
  · rename_i h0
    rw [if_neg (mt hblanks.eq_zero_iff.mpr h0)]
    exact .some ⟨rfl, hblanks⟩

theorem string?_alike (h : L.Alike s t) : L.Finds s t (Lexeme.string? s) (Lexeme.string? t) := by
  have hstring := quotation?_alike h
  rw [Lexeme.string?, Lexeme.string?]
  generalize quotation? s = o, quotation? t = o' at hstring ⊢
  cases hstring with
  | none => exact .none
  | @some a b hfound =>
    obtain ⟨j, closed⟩ := a
    obtain ⟨k, closed'⟩ := b
    obtain ⟨hcut, rfl⟩ := hfound
    exact .some ⟨rfl, hcut⟩

theorem closeUrl_alike (h : L.Cut s m t n) :
    L.Matches s t (Lexeme.closeUrl m (s.drop m)) (Lexeme.closeUrl n (t.drop n)) := by
  have hblanks := cut_countWhile class_isWhitespace h.rest
  rw [Lexeme.closeUrl_eq, Lexeme.closeUrl_eq]
  rcases hblanks.rest.mark (show Plain ')' by decide) with ⟨u, u', hu, hu', _, hclosed⟩ | ⟨hs, ht⟩
  · rw [hu, hu', List.head?_cons, List.head?_cons, if_pos rfl, if_pos rfl]
    exact ⟨rfl, h.add (hblanks.add hclosed)⟩
  · rw [if_neg hs, if_neg ht]
    exact ⟨rfl, h.add hblanks⟩

theorem urlOfBody_alike (h : L.Cut s m t n) :
    L.Matches s t (Lexeme.urlOfBody m (s.drop m)) (Lexeme.urlOfBody n (t.drop n)) := by
  have hstring := quotation?_alike h.rest
  generalize hq : quotation? (s.drop m) = o, hq' : quotation? (t.drop n) = o' at hstring
  cases hstring with
  | none =>
    have hbody := cut_runLength (fits_charOrEscape class_isUrlChar (by decide)) h.rest
    rw [Lexeme.urlOfBody_of_none hq, Lexeme.urlOfBody_of_none hq', List.drop_drop, List.drop_drop]
    exact closeUrl_alike (h.add hbody)
  | @some a b hfound =>
    obtain ⟨j, closed⟩ := a
    obtain ⟨k, closed'⟩ := b
    obtain ⟨hcut, rfl⟩ := hfound
    cases closed with
    | false =>
      rw [Lexeme.urlOfBody_of_cut hq, Lexeme.urlOfBody_of_cut hq']
      exact ⟨rfl, h.add hcut⟩
    | true =>
      rw [Lexeme.urlOfBody_of_closed hq, Lexeme.urlOfBody_of_closed hq', List.drop_drop, List.drop_drop]
      exact closeUrl_alike (h.add hcut)

def startsWith : List (Char → Bool) → Text → Bool
  | [], _ => true
  | _ :: _, [] => false
  | p :: ps, c :: r => p c && startsWith ps r

theorem Alike.startsWith {ps : List (Char → Bool)} (hps : ∀ p ∈ ps, L.Class p ∧ p '\r' = false) (h : L.Alike s t) :
    (startsWith ps s = true ∧ startsWith ps t = true ∧ L.Cut s ps.length t ps.length) ∨
    (startsWith ps s = false ∧ startsWith ps t = false) := by
  induction ps generalizing s t with
  | nil => exact Or.inl ⟨rfl, rfl, .zero h⟩
  | cons p ps ih =>
    obtain ⟨hp, hreturn⟩ := hps p List.mem_cons_self
    cases h with
    | nil => exact Or.inr ⟨rfl, rfl⟩
    | line =>
      have hfeed : p '\n' = false := hp.line ▸ hreturn
      simp [Likeness.startsWith, hreturn, hfeed]
    | @char c d r r' hc hr =>
      have hrest := ih (fun q hq => hps q (List.mem_cons_of_mem p hq)) hr
      rw [Likeness.startsWith, Likeness.startsWith, ← hp.eq hc, List.length_cons, Nat.add_comm]
      cases p c with
      | false => exact Or.inr ⟨rfl, rfl⟩
      | true => exact hrest.imp (fun h => ⟨h.1, h.2.1, .char hc h.2.2⟩) id

theorem afterUrlOpening?_eq (s : Text) :
    afterUrlOpening? s =
      if startsWith [isLetterOf 'u', isLetterOf 'r', isLetterOf 'l', (· == '(')] s then some (s.drop 4) else none := by
  match s with
  | [] => rfl
  | [a] => simp [afterUrlOpening?, startsWith]
  | [a, b] => simp [afterUrlOpening?, startsWith]
  | [a, b, c] => simp [afterUrlOpening?, startsWith]
  | a :: b :: c :: d :: r =>
    by_cases hd : d = '('
    · simp [afterUrlOpening?, startsWith, hd, and_assoc]
    · simp [afterUrlOpening?, startsWith, hd]

theorem uri?_alike (h : L.Alike s t) : L.Finds s t (Lexeme.uri? s) (Lexeme.uri? t) := by
  have hclasses : ∀ p ∈ [isLetterOf 'u', isLetterOf 'r', isLetterOf 'l', (· == '(')], L.Class p ∧ p '\r' = false := by
    simp only [List.forall_mem_cons, List.not_mem_nil, false_imp_iff, implies_true, and_true]
    refine ⟨⟨class_isLetterOf ?_, ?_⟩, ⟨class_isLetterOf ?_, ?_⟩, ⟨class_isLetterOf ?_, ?_⟩,
      class_beq ?_, ?_⟩ <;> decide
  rw [Lexeme.uri?_eq, Lexeme.uri?_eq, afterUrlOpening?_eq, afterUrlOpening?_eq]
  rcases h.startsWith hclasses with ⟨hs, ht, hopening⟩ | ⟨hs, ht⟩
  · rw [if_pos hs, if_pos ht, Option.map_some, Option.map_some, List.drop_drop, List.drop_drop]
    exact .some (urlOfBody_alike (hopening.add (cut_countWhile class_isWhitespace hopening.rest)))
  · rw [if_neg (by simp [hs]), if_neg (by simp [ht])]
    exact .none

/-- The range of code points that `u+` opens before a text. -/
def rangeBehind? (r : Text) : Option Lexeme :=
  let digits := countUpTo 6 isHexDigit r
  let wildcards := countUpTo (6 - digits) (· == '?') (r.drop digits)
  if digits + wildcards = 0 then none
  else if wildcards = 0 then some ⟨.unicodeRange, 2 + digits + upperBoundLength (r.drop digits)⟩
  else some ⟨.unicodeRange, 2 + digits + wildcards⟩

theorem unicodeRange?_eq (s : Text) :
    Lexeme.unicodeRange? s = if startsWith [isLetterOf 'u', (· == '+')] s then rangeBehind? (s.drop 2) else none := by
  match s with
  | [] => rfl
  | [a] => simp [Lexeme.unicodeRange?, startsWith]
  | a :: b :: r =>
    by_cases hb : b = '+'
    · simp [Lexeme.unicodeRange?, startsWith, hb, rangeBehind?]
    · simp [Lexeme.unicodeRange?, startsWith, hb]

theorem unicodeRange?_alike (h : L.Alike s t) : L.Finds s t (Lexeme.unicodeRange? s) (Lexeme.unicodeRange? t) := by
  have hclasses : ∀ p ∈ [isLetterOf 'u', (· == '+')], L.Class p ∧ p '\r' = false := by
    simp only [List.forall_mem_cons, List.not_mem_nil, false_imp_iff, implies_true, and_true]
    refine ⟨⟨class_isLetterOf ?_, ?_⟩, class_beq ?_, ?_⟩ <;> decide
  rw [unicodeRange?_eq, unicodeRange?_eq]
  rcases h.startsWith hclasses with ⟨hs, ht, hopening⟩ | ⟨hs, ht⟩
  · have hopening : L.Cut s 2 t 2 := hopening
    obtain ⟨hdigits, hcut⟩ := countUpTo_alike class_isHexDigit (by decide) 6 hopening.rest
    obtain ⟨hmarks, hcut'⟩ := countUpTo_alike (class_beq (x := '?') (by decide)) (by decide)
      (6 - countUpTo 6 isHexDigit (s.drop 2)) hcut.rest
    rw [if_pos hs, if_pos ht]
    simp only [rangeBehind?, hdigits, hmarks]
    split
    · exact .none
    · split
      · have hrange := hopening.add (hcut.add (cut_upperBoundLength hcut.rest))
        rw [← Nat.add_assoc, ← Nat.add_assoc] at hrange
        exact .some ⟨rfl, hrange⟩
      · have hrange := hopening.add (hcut.add hcut')
        rw [← Nat.add_assoc] at hrange
        exact .some ⟨rfl, hrange⟩
  · rw [if_neg (by simp [hs]), if_neg (by simp [ht])]
    exact .none

/-- A production that looks for one of these marks of plain characters and for nothing else. -/
structure LooksFor (f : Text → Option Lexeme) (marks : List Text) : Prop where
  found : ∀ u ∈ marks, (∀ x ∈ u, Plain x) ∧ ∃ kind, ∀ r, f (u ++ r) = some ⟨kind, u.length⟩
  missed {s : Text} : (∀ u ∈ marks, ¬ u <+: s) → f s = none

theorem LooksFor.alike {f : Text → Option Lexeme} {marks : List Text} (hf : LooksFor f marks) (h : L.Alike s t) :
    L.Finds s t (f s) (f t) := by
  by_cases hs : ∃ u ∈ marks, u <+: s
  · obtain ⟨u, hu, hprefix⟩ := hs
    obtain ⟨hplain, kind, hkind⟩ := hf.found u hu
    rcases h.marks hplain with ⟨r, r', rfl, rfl, _, hcut⟩ | ⟨hnone, -⟩
    · rw [hkind, hkind]
      exact .some ⟨rfl, hcut⟩
    · exact absurd hprefix hnone
  · have hs' : ∀ u ∈ marks, ¬ u <+: s := fun u hu hprefix => hs ⟨u, hu, hprefix⟩
    have ht : ∀ u ∈ marks, ¬ u <+: t := by
      intro u hu hprefix
      rcases h.marks (hf.found u hu).1 with ⟨r, _, hr, _⟩ | ⟨-, hnone⟩
      · exact hs' u hu ⟨r, hr.symm⟩
      · exact hnone hprefix
    rw [hf.missed hs', hf.missed ht]
    exact .none

theorem looksFor_embedding? : LooksFor Lexeme.embedding? ["<!--".toList, "-->".toList] := by
  constructor
  · intro u hu
    simp only [List.mem_cons, List.not_mem_nil, or_false] at hu
    rcases hu with rfl | rfl
    · exact ⟨forall_plain (by decide), .cdo, fun r => rfl⟩
    · exact ⟨forall_plain (by decide), .cdc, fun r => rfl⟩
  · intro s h
    simp only [List.forall_mem_cons] at h
    unfold Lexeme.embedding?
    split
    · exact absurd ⟨_, rfl⟩ h.1
    · exact absurd ⟨_, rfl⟩ h.2.1
    · rfl

theorem looksFor_attributeOperator? :
    LooksFor Lexeme.attributeOperator? [['~', '='], ['|', '='], ['^', '='], ['$', '='], ['*', '=']] := by
  constructor
  · intro u hu
    simp only [List.mem_cons, List.not_mem_nil, or_false] at hu
    rcases hu with rfl | rfl | rfl | rfl | rfl
    · exact ⟨forall_plain (by decide), .includes, fun r => rfl⟩
    · exact ⟨forall_plain (by decide), .dashMatch, fun r => rfl⟩
    · exact ⟨forall_plain (by decide), .prefixMatch, fun r => rfl⟩
    · exact ⟨forall_plain (by decide), .suffixMatch, fun r => rfl⟩
    · exact ⟨forall_plain (by decide), .substringMatch, fun r => rfl⟩
  · intro s h
    simp only [List.forall_mem_cons] at h
    obtain ⟨h1, h2, h3, h4, h5, -⟩ := h
    unfold Lexeme.attributeOperator?
    split
    · exact absurd ⟨_, rfl⟩ h1
    · exact absurd ⟨_, rfl⟩ h2
    · exact absurd ⟨_, rfl⟩ h3
    · exact absurd ⟨_, rfl⟩ h4
    · exact absurd ⟨_, rfl⟩ h5
    · rfl

theorem numberWith_alike (h : L.Cut s m t n) :
    L.Matches s t (Lexeme.numberWith m (s.drop m)) (Lexeme.numberWith n (t.drop n)) := by
  rcases h.rest.mark (show Plain '%' by decide) with ⟨u, u', hu, hu', _, hpercent⟩ | ⟨hs, ht⟩
  · have hcut := h.add hpercent
    rw [hu, hu']
    exact ⟨rfl, hcut⟩
  · have hunit := identLength?_alike h.rest
    rw [Lexeme.numberWith_of_ne hs, Lexeme.numberWith_of_ne ht]
    generalize identLength? (s.drop m) = o, identLength? (t.drop n) = o' at hunit ⊢
    cases hunit with
    | none => exact ⟨rfl, h⟩
    | some hcut => exact ⟨rfl, h.add hcut⟩

theorem numeric?_alike (h : L.Alike s t) : L.Finds s t (Lexeme.numeric? s) (Lexeme.numeric? t) := by
  have hnumber := numberLength?_alike h
  rw [Lexeme.numeric?_eq, Lexeme.numeric?_eq]
  generalize numberLength? s = o, numberLength? t = o' at hnumber ⊢
  cases hnumber with
  | none => exact .none
  | some hcut => exact .some (numberWith_alike hcut)

theorem hash?_alike (h : L.Alike s t) : L.Finds s t (Lexeme.hash? s) (Lexeme.hash? t) := by
  rcases h.mark (show Plain '#' by decide) with ⟨r, r', rfl, rfl, hr, hmark⟩ | ⟨hs, ht⟩
  · have hname := cut_nameLength hr
    rw [Lexeme.hash?_cons, Lexeme.hash?_cons]
    split
    · rename_i h0
      rw [if_pos (hname.eq_zero_iff.mp h0)]
      exact .none
    · rename_i h0
      rw [if_neg (mt hname.eq_zero_iff.mpr h0)]
      exact .some ⟨rfl, hmark.add hname⟩
  · rw [Lexeme.hash?_eq_none hs, Lexeme.hash?_eq_none ht]
    exact .none

theorem identWith_alike (h : L.Cut s m t n) :
    L.Matches s t (Lexeme.identWith m (s.drop m)) (Lexeme.identWith n (t.drop n)) := by
  rcases h.rest.mark (show Plain '(' by decide) with ⟨u, u', hu, hu', _, hopening⟩ | ⟨hs, ht⟩
  · have hcut := h.add hopening
    rw [hu, hu']
    exact ⟨rfl, hcut⟩
  · rw [Lexeme.identWith_of_ne hs, Lexeme.identWith_of_ne ht]
    exact ⟨rfl, h⟩

theorem identLike?_of_head? (h : s.head? ≠ some '@') :
    Lexeme.identLike? s = (identLength? s).map fun n => Lexeme.identWith n (s.drop n) := by
  cases s with
  | nil => rfl
  | cons c r => exact Lexeme.identLike?_of_ne (by simpa using h) r

theorem identLike?_alike (h : L.Alike s t) : L.Finds s t (Lexeme.identLike? s) (Lexeme.identLike? t) := by
  rcases h.mark (show Plain '@' by decide) with ⟨r, r', rfl, rfl, hr, hmark⟩ | ⟨hs, ht⟩
  · have hident := identLength?_alike hr
    rw [Lexeme.identLike?_at, Lexeme.identLike?_at]
    generalize identLength? r = o, identLength? r' = o' at hident ⊢
    cases hident with
    | none => exact .none
    | some hcut => exact .some ⟨rfl, hmark.add hcut⟩
  · have hident := identLength?_alike h
    rw [identLike?_of_head? hs, identLike?_of_head? ht]
    generalize identLength? s = o, identLength? t = o' at hident ⊢
    cases hident with
    | none => exact .none
    | some hcut => exact .some (identWith_alike hcut)

/-- Single characters are told apart by more than their class, but no control character is the start of a name. -/
theorem delim?_alike (h : L.Alike s t) (hs : s.head?.any isNameStart = false) :
    L.Finds s t (Lexeme.delim? s) (Lexeme.delim? t) := by
  cases h with
  | nil => exact .none
  | line => exact .none
  | @char c d r r' hc hr =>
    have heq : c = d := by
      rcases L.eq_or_isNameStart hc with heq | ⟨hstart, -⟩
      · exact heq
      · rw [List.head?_cons, Option.any_some, hstart] at hs
        cases hs
    subst heq
    rw [Lexeme.delim?, Lexeme.delim?]
    split
    · exact .none
    · exact .some ⟨rfl, .one hc hr⟩

end Likeness

namespace Production

variable {L : Likeness} {s t : Text}

theorem lexeme?_alike (p : Production) (h : L.Alike s t) (hp : p = delim → s.head?.any isNameStart = false) :
    L.Finds s t (p.lexeme? s) (p.lexeme? t) := by
  cases p with
  | comment => exact Likeness.comment?_alike h
  | whitespace => exact Likeness.space?_alike h
  | string => exact Likeness.string?_alike h
  | uri => exact Likeness.uri?_alike h
  | unicodeRange => exact Likeness.unicodeRange?_alike h
  | embedding => exact Likeness.looksFor_embedding?.alike h
  | attributeOperator => exact Likeness.looksFor_attributeOperator?.alike h
  | numeric => exact Likeness.numeric?_alike h
  | hash => exact Likeness.hash?_alike h
  | identLike => exact Likeness.identLike?_alike h
  | delim => exact Likeness.delim?_alike h (hp rfl)

theorem findSome?_alike {α : Type} {R : α → α → Prop} {f g : Production → Option α} (ps : List Production)
    (h : ∀ p ∈ ps, Option.Rel R (f p) (g p)) : Option.Rel R (ps.findSome? f) (ps.findSome? g) := by
  induction ps with
  | nil => exact .none
  | cons p ps ih =>
    have hp := h p List.mem_cons_self
    rw [List.findSome?_cons, List.findSome?_cons]
    generalize f p = o, g p = o' at hp ⊢
    cases hp with
    | none => exact ih fun q hq => h q (List.mem_cons_of_mem p hq)
    | some hab => exact .some hab

/-- At the start of a name there is an identifier, if nothing else. -/
theorem not_isNameStart_of_identLike {c : Char} {r : Text} (h : identLike.lexeme? (c :: r) = none) :
    isNameStart c = false := by
  by_contra hc
  rw [Bool.not_eq_false] at hc
  rw [lexeme?, identLike?_of_isNameStart hc] at h
  split at h <;> cases h

theorem select?_alike (h : L.Alike s t) :
    Option.Rel (fun a b => a.1 = b.1 ∧ L.Matches s t a.2 b.2) (select? s) (select? t) := by
  have hfound (p : Production) (hp : p = delim → s.head?.any isNameStart = false) :
      Option.Rel (fun a b => a.1 = b.1 ∧ L.Matches s t a.2 b.2) ((p.lexeme? s).map (p, ·))
        ((p.lexeme? t).map (p, ·)) := by
    have hl := p.lexeme?_alike h hp
    generalize p.lexeme? s = o, p.lexeme? t = o' at hl ⊢
    cases hl with
    | none => exact .none
    | some hmatch => exact .some ⟨rfl, hmatch⟩
  have hfront := findSome?_alike all.dropLast fun p hp =>
    hfound p fun hdelim => absurd (hdelim ▸ hp) (by decide)
  have hsplit (s : Text) : select? s =
      (all.dropLast.findSome? fun p => (p.lexeme? s).map (p, ·)).or ((delim.lexeme? s).map (delim, ·)) := by
    rw [select?, show all = all.dropLast ++ [delim] from rfl, List.findSome?_append, List.findSome?_singleton]
    rfl
  rw [hsplit, hsplit]
  generalize hs : all.dropLast.findSome? (fun p => (p.lexeme? s).map (p, ·)) = o,
    all.dropLast.findSome? (fun p => (p.lexeme? t).map (p, ·)) = o' at hfront ⊢
  cases hfront with
  | some hmatch => exact .some hmatch
  | none =>
    -- a single character is left, and no identifier was found before it
    apply hfound
    intro _
    have hident := List.findSome?_eq_none_iff.mp hs identLike (by decide)
    rw [Option.map_eq_none_iff] at hident
    cases s with
    | nil => rfl
    | cons c r => exact not_isNameStart_of_identLike hident

end Production

end CssLexer
