/-
  CssLexer.Proofs.Restart — reading on from a token boundary against reading the rest as a text of its own.

  What is read at a place depends on what remains and on nothing read before, but for two things: places are counted
  from where the text starts, and a byte order mark counts as one only there. `Position.rebase` turns a place of the
  rest into the place of the whole text; reading commutes with it, step by step, because moving over a character does.

  Proved:
  - `rebase_behind`: the place behind a text that starts at `base` is the rebased place behind that text.
  - `entries_rebase`: behind the start, a reader has the rebased entries of what remains.
  - `select?_of_nonascii`: a character outside ASCII starts an identifier, alone or before a parenthesis.
  - `tokenize_behind`: so from a boundary on the tokens are those of the rest, rebased, unless the rest starts with a
    byte order mark, which then belongs to an identifier.
-/

import CssLexer.Proofs.MaximalMunch
import CssLexer.Proofs.Places

namespace CssLexer

/-! ## Places of a part -/

namespace Position

/-- The place `p` of a text as a place of the text around it, in which it starts at `base`: on its first line the
columns go on from `base`, on the lines below they are its own. -/
def rebase (base p : Position) : Position :=
  if p.line = 1 then ⟨base.line, base.column + p.column - 1, base.offset + p.offset⟩
  else ⟨base.line + p.line - 1, p.column, base.offset + p.offset⟩

theorem rebase_start (base : Position) : base.rebase start = base := rfl

theorem rebase_offset (base p : Position) : (base.rebase p).offset = base.offset + p.offset := by
  unfold rebase
  split <;> rfl

theorem rebase_step (base : Position) {p : Position} (hl : 1 ≤ p.line) (hc : 1 ≤ p.column) (c : Char) :
    base.rebase (p.step c) = (base.rebase p).step c := by
  have hoffset (n : Nat) : base.offset + (p.offset + n) = base.offset + p.offset + n := (Nat.add_assoc _ _ _).symm
  by_cases hnl : c = '\n'
  · -- a new line of the part is never its first
    have hne : p.line + 1 ≠ 1 := by omega
    by_cases h1 : p.line = 1
    · simp [rebase, step, hnl, h1, hoffset]
    · simp only [rebase, step, hnl, if_true, hne, h1, if_false, hoffset, mk.injEq, and_true]
      omega
  · by_cases h1 : p.line = 1
    · simp only [rebase, step, hnl, h1, if_true, if_false, hoffset, mk.injEq, and_true, true_and]
      omega
    · simp only [rebase, step, hnl, h1, if_false, hoffset]

theorem rebase_behind (base : Position) (p : Text) : base.rebase (behind p) = base.after p := by
  induction p using List.reverseRecOn with
  | nil => exact base.rebase_start
  | append_singleton p c ih =>
    have hl : 1 ≤ (behind p).line := Nat.le_add_right _ _
    have hc : 1 ≤ (behind p).column := Nat.le_add_right _ _
    rw [behind_concat, rebase_step base hl hc, ih, after_append]
    rfl

theorem behind_after (p s : Text) : (behind p).after s = behind (p ++ s) := by
  rw [← start_after, ← start_after, after_append]

end Position

/-- The token `t` of a text as a token of the text around it, in which that text starts at `base`. -/
def Token.rebase (base : Position) (t : Token) : Token :=
  if t.line = 1 then { t with line := base.line, column := base.column + t.column - 1 }
  else { t with line := base.line + t.line - 1 }

def Entry.rebase (base : Position) (e : Entry) : Entry := { e with token := e.token.rebase base }

def Reader.rebase (base : Position) (r : Reader) : Reader := { r with position := base.rebase r.position }

/-! ## Reading commutes with rebasing -/

namespace Reader

theorem rule_eq_of_remaining {r r' : Reader} (h : r.remaining = r'.remaining) (hr : ¬ AtMark r) (hr' : ¬ AtMark r') :
    r.rule = r'.rule := by
  rw [rule_of_not_atMark hr, rule_of_not_atMark hr', h]

theorem token_rebase (base p : Position) (kind : Kind) (value : Text) :
    (⟨kind, value, (base.rebase p).line, (base.rebase p).column⟩ : Token) =
      Token.rebase base ⟨kind, value, p.line, p.column⟩ := by
  by_cases h : p.line = 1 <;> simp [Position.rebase, Token.rebase, h]

variable {base : Position} (hbase : 0 < base.offset)
include hbase

theorem not_atMark_rebase (r : Reader) : ¬ AtMark (r.rebase base) := by
  rintro ⟨h, -⟩
  have : (r.rebase base).position.offset = base.offset + r.position.offset := base.rebase_offset r.position
  omega

theorem entry?_rebase {r : Reader} {q : Text} (hq : r.position = .behind q) (hr : ¬ AtMark r) :
    Reader.entry? (r.rebase base) = Option.map (Prod.map (Entry.rebase base) (Reader.rebase base)) r.entry? := by
  have hrule : (r.rebase base).rule = r.rule := rule_eq_of_remaining rfl (not_atMark_rebase hbase r) hr
  have hafter (v : Text) : (base.rebase r.position).after v = base.rebase (r.position.after v) := by
    rw [hq, Position.behind_after, Position.rebase_behind, Position.rebase_behind, Position.after_append]
  by_cases hend : r.remaining = []
  · rw [entry?_eq_none_iff.mpr hend, entry?_eq_none_iff.mpr (show (r.rebase base).remaining = [] from hend)]
    rfl
  · rw [entry?_of_ne_nil hend, entry?_of_ne_nil (show (r.rebase base).remaining ≠ [] from hend), hrule]
    simp only [Reader.rebase, hafter, token_rebase, Option.map_some, Prod.map_apply, Entry.rebase]

/-- A reader as it stands in a text around its own reads what it would read, rebased. -/
theorem entries_rebase {r : Reader} {q : Text} (hq : r.position = .behind q) (hr : ¬ AtMark r) :
    (r.rebase base).entries = r.entries.map (Entry.rebase base) := by
  induction r using read_induction generalizing q with
  | done r he =>
    have hread := entry?_rebase hbase hq hr
    rw [he] at hread
    rw [entries_of_none he, entries_of_none hread, List.map_nil]
  | read r e next he ih =>
    have hread := entry?_rebase hbase hq hr
    have hs := entry?_step he
    rw [he] at hread
    have hnext : next.position = .behind (q ++ e.token.value) := by rw [hs.position, hq, Position.behind_after]
    rw [entries_of_some he, entries_of_some hread, List.map_cons, ih hnext hs.not_atMark]

end Reader

/-! ## A byte order mark inside a text -/

namespace Production

theorem select?_of_nonascii {c : Char} (hc : isNonascii c = true) (r : Text) :
    ∃ l, select? (c :: r) = some (identLike, l) ∧ (l.kind = .ident ∨ l.kind = .function) := by
  have hstart : isNameStart c = true := by rw [isNameStart, hc, Bool.or_true]
  have hident := identLike?_of_isNameStart hstart r
  have hopens : identLike.opens (c :: r) = true := by
    rw [← isSome_lexeme?, lexeme?, hident]
    split <;> rfl
  cases hsel : select? (c :: r) with
  | none =>
    have hnone : identLike.lexeme? (c :: r) = none := (firstOf_eq_none_iff orderly_all).mp hsel identLike
    rw [← isSome_lexeme?, hnone] at hopens
    cases hopens
  | some found =>
    obtain ⟨p, l⟩ := found
    have hwins : Wins p (c :: r) := firstOf_wins orderly_all hsel
    have hdelim : p ≠ delim := by
      rintro rfl
      rcases hwins.yields identLike hopens with h | h | ⟨-, h | h⟩ <;> cases h
    have hleading : leading c = [identLike] := by rw [leading, if_pos hc]
    have hp : p = identLike := by
      have hm := mem_leading hwins.opens hdelim
      rwa [hleading, List.mem_singleton] at hm
    subst hp
    refine ⟨l, rfl, ?_⟩
    have hl : identLike.lexeme? (c :: r) = some l := select?_lexeme? hsel
    rw [lexeme?, hident] at hl
    split at hl <;> cases hl
    · exact Or.inr rfl
    · exact Or.inl rfl

end Production

namespace Reader

theorem entry?_of_atMark {r : Reader} (h : AtMark r) : ∃ e next, r.entry? = some (e, next) ∧
    e.token.kind = .byteOrderMark := by
  cases he : r.entry? with
  | none =>
    have hhead := h.2
    rw [entry?_eq_none_iff.mp he] at hhead
    cases hhead
  | some found =>
    obtain ⟨e, next⟩ := found
    refine ⟨e, next, rfl, ?_⟩
    rw [(entry?_step he).kind, rule_of_atMark h]

/-- Behind the start of a text a byte order mark belongs to an identifier. -/
theorem entry?_of_late_mark {r : Reader} (h : r.remaining.head? = some '\uFEFF') (hr : ¬ AtMark r) :
    ∃ e next, r.entry? = some (e, next) ∧ (e.token.kind = .ident ∨ e.token.kind = .function) := by
  obtain ⟨t, ht⟩ := List.head?_eq_some_iff.mp h
  obtain ⟨l, hl, hkind⟩ := Production.select?_of_nonascii (show isNonascii '\uFEFF' = true by decide) t
  cases he : r.entry? with
  | none =>
    rw [entry?_eq_none_iff.mp he] at ht
    cases ht
  | some found =>
    obtain ⟨e, next⟩ := found
    refine ⟨e, next, rfl, ?_⟩
    rw [(entry?_step he).kind, rule_of_not_atMark hr, ht, hl]
    exact hkind

end Reader

/-! ## Boundaries -/

theorem afterCalls_reader {s : Text} {before behind : List Token} (h : tokenize s = before ++ behind) :
    ((Scan.ofText s).afterCalls before.length).reader = ⟨spelled behind, .behind (spelled before)⟩ := by
  have hremaining := (Scan.ofText s).afterCalls_remaining before.length
  have hposition := (Scan.ofText s).afterCalls_position before.length
  rw [← tokenize_eq, h, List.drop_left] at hremaining
  rw [← tokenize_eq, h, List.take_left] at hposition
  have hstart : (Scan.ofText s).position.after (spelled before) = .behind (spelled before) := Position.start_after _
  rw [hstart] at hposition
  rw [← hremaining, ← hposition]
  rfl

theorem tokens_behind {s : Text} {before behind : List Token} (h : tokenize s = before ++ behind) :
    behind = (Reader.mk (spelled behind) (.behind (spelled before))).entries.map Entry.token := by
  have hentries := (Scan.ofText s).afterCalls_entries before.length
  rw [afterCalls_reader h] at hentries
  rw [hentries, List.map_drop, ← tokenize_eq, h, List.drop_left]

/-- Cut a text at a boundary behind its first tokens. If the rest does not start with a byte order mark, its tokens are
the tokens from the boundary on, with the same kinds and values, and each place counted from the boundary. If it does,
a byte order mark is its first token, but an identifier or a function stands behind the boundary. -/
theorem tokenize_behind {s r : Text} {before behind : List Token} (htokens : tokenize s = before ++ behind)
    (hbefore : before ≠ []) (hr : s = spelled before ++ r) :
    (r.head? ≠ some '\uFEFF' → behind = (tokenize r).map (Token.rebase (.behind (spelled before)))) ∧
    (r.head? = some '\uFEFF' → ∃ t ts u us, behind = t :: ts ∧ (t.kind = .ident ∨ t.kind = .function) ∧
      tokenize r = u :: us ∧ u.kind = .byteOrderMark) := by
  have hspelled : spelled behind = r := by
    have h := spelled_tokenize s
    rw [htokens, spelled_append, hr] at h
    exact List.append_cancel_left h
  have hoffset : 0 < (Position.behind (spelled before)).offset := by
    obtain ⟨t, ts, rfl⟩ := List.exists_cons_of_ne_nil hbefore
    have hmem : t ∈ tokenize s := by rw [htokens]; exact List.mem_cons_self
    have hne : t.value ≠ [] := (mem_tokenize hmem).1
    have hpos := List.length_pos_iff.mpr hne
    have hle := Text.length_le_byteLength (spelled (t :: ts))
    rw [spelled_cons, List.length_append] at hle
    show 0 < (t.value ++ spelled ts).byteLength
    omega
  have hread := tokens_behind htokens
  rw [hspelled] at hread
  constructor
  · intro hhead
    have hmark : ¬ (Reader.ofText r).AtMark := fun h => hhead h.2
    have h := Reader.entries_rebase hoffset (r := Reader.ofText r) (q := []) rfl hmark
    rw [hread, tokenize_eq, List.map_map]
    have hreader : (Reader.ofText r).rebase (.behind (spelled before)) = ⟨r, .behind (spelled before)⟩ := rfl
    rw [hreader] at h
    rw [h, List.map_map]
    rfl
  · intro hhead
    obtain ⟨e, next, he, hkind⟩ := Reader.entry?_of_late_mark (r := ⟨r, .behind (spelled before)⟩) hhead
      (fun h => absurd h.1 (by show (Position.behind (spelled before)).offset ≠ 0; omega))
    obtain ⟨e', next', he', hkind'⟩ := Reader.entry?_of_atMark (r := .ofText r) ⟨rfl, hhead⟩
    refine ⟨e.token, next.entries.map Entry.token, e'.token, next'.entries.map Entry.token, ?_, hkind, ?_, hkind'⟩
    · rw [hread, Reader.entries_of_some he, List.map_cons]
    · rw [tokenize_eq]
      show (Reader.ofText r).entries.map Entry.token = _
      rw [Reader.entries_of_some he', List.map_cons]

/-- A boundary before a comment of two lines, and one before a late byte order mark. -/
theorem tokenize_behind_comment_and_mark :
    tokenize "a /*\n*/c" =
      [⟨.ident, "a", 1, 1⟩] ++ [⟨.space, " ", 1, 2⟩, ⟨.comment, "/*\n*/", 1, 3⟩, ⟨.ident, "c", 2, 3⟩] ∧
    [⟨.space, " ", 1, 2⟩, ⟨.comment, "/*\n*/", 1, 3⟩, ⟨.ident, "c", 2, 3⟩] =
      (tokenize " /*\n*/c").map (Token.rebase ⟨1, 2, 1⟩) ∧
    tokenize "\n\uFEFF(" = [⟨.space, "\n", 1, 1⟩] ++ [⟨.function, "\uFEFF(", 2, 1⟩] ∧
    ∃ (t : Token) (ts : List Token) (u : Token) (us : List Token),
      [⟨.function, "\uFEFF(", 2, 1⟩] = t :: ts ∧ (t.kind = .ident ∨ t.kind = .function) ∧
      tokenize "\uFEFF(" = u :: us ∧ u.kind = .byteOrderMark := by
  have hcomment : tokenize "a /*\n*/c" =
      [⟨.ident, "a", 1, 1⟩] ++ [⟨.space, " ", 1, 2⟩, ⟨.comment, "/*\n*/", 1, 3⟩, ⟨.ident, "c", 2, 3⟩] := by
    decide +kernel
  have hmark : tokenize "\n\uFEFF(" = [⟨.space, "\n", 1, 1⟩] ++ [⟨.function, "\uFEFF(", 2, 1⟩] := by decide +kernel
  exact ⟨hcomment, (tokenize_behind (r := " /*\n*/c") hcomment (by decide) (by decide)).1 (by decide), hmark,
    (tokenize_behind (r := "\uFEFF(") hmark (by decide) (by decide)).2 (by decide)⟩

end CssLexer
