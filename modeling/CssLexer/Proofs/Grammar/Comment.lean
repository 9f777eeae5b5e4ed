/-
  CssLexer.Proofs.Grammar.Comment — a comment ends at the first closing mark, as the grammar says.

  The lexer looks for the first `*/` behind the opening. The grammar has no such search: it reads runs of stars, and
  behind each run a character that is neither a slash nor a star, until a slash follows a run. Both stop at the same
  place, and so no text has two comments at its start. Where no `*/` follows, the grammar has no comment and the lexer
  takes the rest of the text.

  Proved:
  - `body_reach`: behind a body of the grammar with a slash after it, the search stops before the last star of the body.
  - `take_body_mem`: what is before the slash that the search has found is a body of the grammar.
  - `comment?_of_mem`: so a comment of the grammar is found as it is, whatever is behind it.
  - `comments_exact`: and nothing else is found as closed.
-/

import CssLexer.Proofs.Extension
import CssLexer.Proofs.Grammar.Longest
import CssLexer.Proofs.Separation

namespace CssLexer

namespace Grammar

/-- Characters up to a run of stars, and that run. -/
def upToStars : Language Char := KStar.kstar (one (· != '*')) * oneOrMore (one (· == '*'))

/-- From a character that goes on behind a run of stars to the next run. -/
def round : Language Char := one (fun c => c != '/' && c != '*') * upToStars

def commentBody : Language Char := upToStars * KStar.kstar round

/-- What may follow a star in a body. -/
def behindStar : Language Char := KStar.kstar (one (· == '*')) * KStar.kstar round

theorem comment_eq : comment = exactly ['/', '*'] * commentBody * exactly ['/'] := by
  simp only [comment, commentBody, round, upToStars, mul_assoc]

variable {c : Char} {r s t u v w : Text} {n : Nat}

/-! ## Bodies are searched to their end -/

theorem nonstars_run (hu : ∀ c ∈ u, c ≠ '*') (t : Text) :
    runLength commentItem (u ++ t) = u.length + runLength commentItem t := by
  induction u with
  | nil => simp
  | cons c u ih =>
    obtain ⟨hc, hu⟩ := List.forall_mem_cons.mp hu
    rw [List.cons_append, commentBody_cons (by simp [hc]), ih hu, List.length_cons]
    omega

/-- A run of stars with no slash behind it is passed. -/
theorem stars_run (hu : ∀ c ∈ u, c = '*') (ht : t.head? ≠ some '/') :
    runLength commentItem (u ++ t) = u.length + runLength commentItem t := by
  induction u with
  | nil => simp
  | cons c u ih =>
    rw [List.forall_mem_cons] at hu
    have hnext : (u ++ t).head? ≠ some '/' := by
      cases u with
      | nil => exact ht
      | cons d u => simp [hu.2 d List.mem_cons_self]
    rw [List.cons_append, commentBody_cons (by simpa using fun _ => hnext), ih hu.2, List.length_cons]
    omega

/-- Before a slash the search stops at the last star of the run. -/
theorem stars_run_slash (hu : u ∈ oneOrMore (one (· == '*'))) (t : Text) :
    runLength commentItem (u ++ '/' :: t) + 1 = u.length := by
  obtain ⟨hne, hall⟩ := mem_oneOrMore_one.mp hu
  obtain ⟨v, c, rfl⟩ := (List.eq_nil_or_concat' u).resolve_left hne
  simp only [beq_iff_eq, List.forall_mem_append, List.forall_mem_singleton] at hall
  obtain ⟨hv, rfl⟩ := hall
  have hstop : runLength commentItem ('*' :: '/' :: t) = 0 := runLength_cons_of_none rfl
  rw [List.append_assoc, List.singleton_append, stars_run hv (by simp), hstop, List.length_append,
    List.length_singleton, Nat.add_zero]

theorem forall_ne_star {a : Text} (ha : a ∈ KStar.kstar (one (· != '*'))) : ∀ c ∈ a, c ≠ '*' := by
  simpa using mem_star_one.mp ha

theorem forall_eq_star {u : Text} (hu : u ∈ oneOrMore (one (· == '*'))) : ∀ c ∈ u, c = '*' := by
  simpa using (mem_oneOrMore_one.mp hu).2

/-- Behind a run of stars, rounds of the grammar are passed up to their last star. -/
theorem rounds_run (hu : u ∈ oneOrMore (one (· == '*'))) (hw : w ∈ KStar.kstar round) (t : Text) :
    runLength commentItem (u ++ (w ++ '/' :: t)) + 1 = u.length + w.length := by
  obtain ⟨rounds, rfl, hrounds⟩ := Language.mem_kstar.mp hw
  clear hw
  induction rounds generalizing u with
  | nil => exact stars_run_slash hu t
  | cons x rounds ih =>
    obtain ⟨hx, hrest⟩ := List.forall_mem_cons.mp hrounds
    obtain ⟨_, ⟨c, hc, rfl⟩, y, hy, rfl⟩ := Language.mem_mul.mp hx
    obtain ⟨a, ha, v, hv, rfl⟩ := Language.mem_mul.mp hy
    simp only [Bool.and_eq_true, bne_iff_ne] at hc
    have hfirst : ∀ d ∈ c :: a, d ≠ '*' := List.forall_mem_cons.mpr ⟨hc.2, forall_ne_star ha⟩
    have hlast := ih hv hrest
    have hrun : runLength commentItem (u ++ (c :: a ++ (v ++ (rounds.flatten ++ '/' :: t)))) =
        u.length + ((c :: a).length + runLength commentItem (v ++ (rounds.flatten ++ '/' :: t))) := by
      rw [stars_run (forall_eq_star hu) (by simp [hc.1]), nonstars_run hfirst]
    simp only [List.flatten_cons, List.append_assoc, List.cons_append, List.nil_append, List.length_cons,
      List.length_append] at hrun ⊢
    omega

/-- Behind a body with a slash after it, the search has stopped before the last star of the body. -/
theorem body_reach (hu : u ∈ commentBody) (t : Text) : runLength commentItem (u ++ '/' :: t) + 1 = u.length := by
  obtain ⟨x, hx, w, hw, rfl⟩ := Language.mem_mul.mp hu
  obtain ⟨a, ha, v, hv, rfl⟩ := Language.mem_mul.mp hx
  have hlast := rounds_run hv hw t
  simp only [List.append_assoc, List.length_append]
  rw [nonstars_run (forall_ne_star ha)]
  omega

/-! ## What is searched is a body -/

theorem commentBody_of_ne (hc : c ≠ '*') (hu : u ∈ commentBody) : c :: u ∈ commentBody := by
  obtain ⟨x, hx, w, hw, rfl⟩ := Language.mem_mul.mp hu
  obtain ⟨a, ha, v, hv, rfl⟩ := Language.mem_mul.mp hx
  have hca : c :: a ∈ KStar.kstar (one (· != '*')) :=
    append_mem_star (singleton_mem_one.mpr (by simpa using hc)) ha
  exact Language.append_mem_mul (Language.append_mem_mul hca hv) hw

theorem commentBody_of_star (hu : u ∈ behindStar) : '*' :: u ∈ commentBody := by
  obtain ⟨v, hv, w, hw, rfl⟩ := Language.mem_mul.mp hu
  have hstars : '*' :: v ∈ oneOrMore (one (· == '*')) :=
    Language.append_mem_mul (singleton_mem_one.mpr rfl) hv
  exact Language.append_mem_mul (Language.append_mem_mul (Language.nil_mem_kstar _) hstars) hw

theorem behindStar_of_star (hu : u ∈ behindStar) : '*' :: u ∈ behindStar := by
  obtain ⟨v, hv, w, hw, rfl⟩ := Language.mem_mul.mp hu
  exact Language.append_mem_mul (append_mem_star (singleton_mem_one.mpr rfl) hv) hw

theorem nil_behindStar : [] ∈ behindStar :=
  Language.append_mem_mul (Language.nil_mem_kstar _) (Language.nil_mem_kstar _)

theorem behindStar_of_ne (hc : c ≠ '*') (hslash : c ≠ '/') (hu : u ∈ commentBody) : c :: u ∈ behindStar := by
  obtain ⟨x, hx, w, hw, rfl⟩ := Language.mem_mul.mp hu
  have hround : c :: x ∈ round :=
    Language.append_mem_mul (singleton_mem_one.mpr (by simpa using ⟨hslash, hc⟩)) hx
  exact Language.append_mem_mul (Language.nil_mem_kstar _) (append_mem_star hround hw)

/-- What the search has passed, with the star it has stopped at, is a body; and behind a star it may follow there,
unless it starts with a slash. -/
theorem take_body_mem (h : r.drop (runLength commentItem r) = '*' :: t) :
    r.take (runLength commentItem r + 1) ∈ commentBody ∧
      (r.head? ≠ some '/' → r.take (runLength commentItem r + 1) ∈ behindStar) := by
  induction r with
  | nil => cases h
  | cons c r ih =>
    by_cases hcloses : (c == '*' && r.head? == some '/') = true
    · rw [runLength_cons_of_none (if_pos hcloses)] at h ⊢
      cases h
      exact ⟨commentBody_of_star nil_behindStar, fun _ => behindStar_of_star nil_behindStar⟩
    · rw [commentBody_cons hcloses, drop_one_add] at h
      obtain ⟨hbody, hbehind⟩ := ih h
      rw [commentBody_cons hcloses, Nat.add_assoc, Nat.add_comm 1, List.take_succ_cons]
      by_cases hc : c = '*'
      · subst hc
        have hnext : r.head? ≠ some '/' := by simpa using hcloses
        exact ⟨commentBody_of_star (hbehind hnext), fun _ => behindStar_of_star (hbehind hnext)⟩
      · refine ⟨commentBody_of_ne hc hbody, fun hslash => ?_⟩
        exact behindStar_of_ne hc (by simpa using hslash) hbody

/-! ## Comments -/

theorem mem_comment_iff : v ∈ comment ↔ ∃ u ∈ commentBody, v = '/' :: '*' :: (u ++ ['/']) := by
  rw [comment_eq]
  constructor
  · intro h
    obtain ⟨x, hx, _, rfl, rfl⟩ := Language.mem_mul.mp h
    obtain ⟨_, rfl, u, hu, rfl⟩ := Language.mem_mul.mp hx
    exact ⟨u, hu, rfl⟩
  · intro ⟨u, hu, hv⟩
    rw [hv]
    exact Language.append_mem_mul (Language.append_mem_mul (mem_exactly (t := ['/', '*']).mpr rfl) hu)
      (mem_exactly (t := ['/']).mpr rfl)

theorem drop_body_ne_nil (hu : u ∈ commentBody) (t : Text) :
    (u ++ '/' :: t).drop (runLength commentItem (u ++ '/' :: t)) ≠ [] := by
  have hreach := body_reach hu t
  intro hnil
  have hlength := List.drop_eq_nil_iff.mp hnil
  rw [List.length_append, List.length_cons] at hlength
  omega

/-- A comment of the grammar is found, and no shorter and no longer than it is. -/
theorem comment?_of_mem (hv : v ∈ comment) (t : Text) : Lexeme.comment? (v ++ t) = some ⟨.comment, v.length⟩ := by
  obtain ⟨u, hu, rfl⟩ := mem_comment_iff.mp hv
  have hreach := body_reach hu t
  simp only [List.cons_append, List.append_assoc, List.nil_append, List.length_cons, List.length_append,
    List.length_nil]
  rw [Lexeme.comment?_cons, if_neg (drop_body_ne_nil hu t)]
  congr 2
  omega

theorem comment?_of_take_mem (hn : n ≤ s.length) (hs : s.take n ∈ comment) :
    Lexeme.comment? s = some ⟨.comment, n⟩ := by
  have hfound := comment?_of_mem hs (s.drop n)
  rwa [List.take_append_drop, List.length_take_of_le hn] at hfound

theorem isOnly_comment (hn : n ≤ s.length) (hs : s.take n ∈ comment) : IsOnly comment s n := by
  refine ⟨hn, hs, ?_⟩
  intro m hm hs'
  have hfound := comment?_of_take_mem hn hs
  rw [comment?_of_take_mem hm hs'] at hfound
  cases hfound
  rfl

/-- Behind an opening the text has a comment of the grammar exactly where the search ends before the text does. -/
theorem closed_iff : (∃ n, ('/' :: '*' :: r).take n ∈ comment) ↔ r.drop (runLength commentItem r) ≠ [] := by
  constructor
  · intro ⟨n, hn⟩
    obtain ⟨u, hu, heq⟩ := mem_comment_iff.mp hn
    have hsplit := List.take_append_drop n ('/' :: '*' :: r)
    rw [heq, List.cons_append, List.cons_append, List.append_assoc, List.cons.injEq, List.cons.injEq] at hsplit
    rw [← hsplit.2.2]
    exact drop_body_ne_nil hu _
  · intro h
    obtain ⟨t, ht⟩ := (drop_commentBody r).resolve_left h
    refine ⟨2 + runLength commentItem r + 2, mem_comment_iff.mpr ⟨_, (take_body_mem ht).1, ?_⟩⟩
    have hslash : r.take (runLength commentItem r + 2) = r.take (runLength commentItem r + 1) ++ ['/'] := by
      rw [List.take_add, List.take_add, ht, List.append_assoc]
      rfl
    rw [show 2 + runLength commentItem r + 2 = runLength commentItem r + 2 + 1 + 1 by omega, List.take_succ_cons,
      List.take_succ_cons, hslash]

theorem closingMark_iff : ['*', '/'] <:+: r ↔ r.drop (runLength commentItem r) ≠ [] := by
  constructor
  · intro ⟨u, v, heq⟩ hnil
    have hle := Lexeme.commentBody_le u v
    have hlength := List.drop_eq_nil_iff.mp hnil
    rw [List.append_assoc] at heq
    rw [← heq] at hlength
    simp only [List.length_append, List.length_cons, List.cons_append, List.nil_append] at hle hlength
    omega
  · intro h
    obtain ⟨t, ht⟩ := (drop_commentBody r).resolve_left h
    refine ⟨r.take (runLength commentItem r), t, ?_⟩
    rw [List.append_assoc, List.cons_append, List.cons_append, List.nil_append, ← ht, List.take_append_drop]

theorem comment?_of_unclosed (h : ∀ n, ('/' :: '*' :: r).take n ∉ comment) :
    Lexeme.comment? ('/' :: '*' :: r) = some ⟨.comment, ('/' :: '*' :: r).length⟩ := by
  have hend : r.drop (runLength commentItem r) = [] := by
    by_contra hne
    obtain ⟨n, hn⟩ := closed_iff.mpr hne
    exact h n hn
  have hle := runLength_le commentItem r
  have hlength := List.drop_eq_nil_iff.mp hend
  rw [Lexeme.comment?_cons, if_pos hend, List.length_cons, List.length_cons]
  congr 2
  omega

end Grammar

/-- A text has the lexeme of a comment exactly where it starts with the opening. If a beginning of it is a comment of the
grammar, it is the only one and is found; if none is, the lexeme is the whole text. The comment is closed exactly where
a closing mark stands behind the whole opening, so the star of the opening closes nothing. -/
theorem comments_exact (s : Text) :
    (Lexeme.comment? s = none ↔ ¬ ['/', '*'] <+: s) ∧
    ∀ r, s = '/' :: '*' :: r →
      (∀ n ≤ s.length, s.take n ∈ Grammar.comment →
        Grammar.IsOnly Grammar.comment s n ∧ Lexeme.comment? s = some ⟨.comment, n⟩) ∧
      ((∀ n, s.take n ∉ Grammar.comment) → Lexeme.comment? s = some ⟨.comment, s.length⟩) ∧
      ((∃ n, s.take n ∈ Grammar.comment) ↔ ['*', '/'] <:+: r) := by
  refine ⟨?_, ?_⟩
  · constructor
    · intro hnone hopening
      obtain ⟨r, rfl⟩ := hopening
      cases hnone.symm.trans (Lexeme.comment?_cons r)
    · exact Lexeme.comment?_eq_none
  · intro r hs
    subst hs
    refine ⟨fun n hle hn => ⟨Grammar.isOnly_comment hle hn, Grammar.comment?_of_take_mem hle hn⟩, ?_, ?_⟩
    · exact Grammar.comment?_of_unclosed
    · rw [Grammar.closed_iff, Grammar.closingMark_iff]

example : Lexeme.comment? "/*/" = some ⟨.comment, 3⟩ ∧ Lexeme.comment? "/*/ */ */" = some ⟨.comment, 6⟩ := by decide

end CssLexer
