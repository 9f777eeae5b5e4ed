/-
  CssLexer.Proofs.Reading — one step of reading, and runs of steps.

  `Step r e next` says everything a step does: it takes a non-empty piece off the front of what remains, makes it the
  value of a token at the reader's place, and moves the place over it. `Reads r es last` is a run of steps with the
  entries `es`. A scan reads as its reader does, so the calls of `nextToken` are the same run, and behind it every call
  gives the end token.

  Proved:
  - `entry?_step`: a token that is read is such a step; `entry?_eq_none_iff`: none is read only at the end;
    `entry?_of_ne_nil`: what is read before it; `Step.select?`: which production has found it.
  - `Reads.remaining`: a run takes the values of its entries off the front, in order; `entries_reads`: the entries of a
    reader are the run to the end of its text.
  - `call_eq`: call by call, a scan gives the tokens of those entries and then the end token; `afterCalls_entries`: what
    it has still to read after some calls.
  - `readUntil_result`: reading up to a token gives the tokens before it and that token.
  - `serve_scan`: what every call keeps, every request keeps.
-/

import CssLexer.Proofs.Bounds
import CssLexer.Scan
import Mathlib.Data.List.TakeWhile
import Mathlib.Logic.Function.Iterate

namespace CssLexer

/-- The text that tokens were read from, one after another. -/
def spelled (tokens : List Token) : Text := tokens.flatMap Token.value

@[simp] theorem spelled_nil : spelled [] = [] := rfl

@[simp] theorem spelled_cons (t : Token) (ts : List Token) : spelled (t :: ts) = t.value ++ spelled ts := rfl

theorem spelled_append (ts us : List Token) : spelled (ts ++ us) = spelled ts ++ spelled us := List.flatMap_append

/-! ## The kinds of lexemes -/

namespace Production

/-- The kinds that the lexemes of a production can have. -/
def kinds : Production → List Kind
  | comment => [.comment]
  | whitespace => [.space]
  | string => [.string, .badString]
  | uri => [.uri, .badUri]
  | unicodeRange => [.unicodeRange]
  | embedding => [.cdo, .cdc]
  | attributeOperator => [.includes, .dashMatch, .prefixMatch, .suffixMatch, .substringMatch]
  | numeric => [.number, .percentage, .dimension]
  | hash => [.hash]
  | identLike => [.ident, .function, .atKeyword]
  | delim => [.delim]

theorem kind_closeUrl (n : Nat) (s : Text) : (Lexeme.closeUrl n s).kind ∈ uri.kinds := by
  simp only [Lexeme.closeUrl]
  split <;> simp [kinds]

theorem lexeme?_kind {p : Production} {s : Text} {l : Lexeme} (h : p.lexeme? s = some l) : l.kind ∈ p.kinds := by
  cases p <;> simp only [lexeme?] at h
  case comment =>
    unfold Lexeme.comment? at h
    split at h
    · simp only at h
      split at h <;> cases h <;> simp [kinds]
    · cases h
  case whitespace =>
    unfold Lexeme.space? at h
    split at h <;> cases h
    simp [kinds]
  case string =>
    simp only [Lexeme.string?, Option.map_eq_some_iff] at h
    obtain ⟨⟨n, closed⟩, _, rfl⟩ := h
    cases closed <;> simp [kinds]
  case uri =>
    simp only [Lexeme.uri?, Option.map_eq_some_iff] at h
    obtain ⟨rest, _, rfl⟩ := h
    split
    · simp [kinds]
    · exact kind_closeUrl _ _
    · exact kind_closeUrl _ _
  case unicodeRange =>
    unfold Lexeme.unicodeRange? at h
    split at h
    · simp only at h
      repeat' split at h
      all_goals cases h <;> simp [kinds]
    · cases h
  case embedding => unfold Lexeme.embedding? at h; split at h <;> cases h <;> simp [kinds]
  case attributeOperator => unfold Lexeme.attributeOperator? at h; split at h <;> cases h <;> simp [kinds]
  case numeric =>
    simp only [Lexeme.numeric?, Option.map_eq_some_iff] at h
    obtain ⟨n, _, rfl⟩ := h
    split
    · simp [kinds]
    · split <;> simp [kinds]
  case hash =>
    unfold Lexeme.hash? at h
    repeat' split at h
    all_goals cases h
    simp [kinds]
  case identLike =>
    unfold Lexeme.identLike? at h
    split at h
    · simp only [Option.map_eq_some_iff] at h
      obtain ⟨n, _, rfl⟩ := h
      simp [kinds]
    · simp only [Option.map_eq_some_iff] at h
      obtain ⟨n, _, rfl⟩ := h
      split <;> simp [kinds]
  case delim =>
    unfold Lexeme.delim? at h
    repeat' split at h
    all_goals cases h
    simp [kinds]

theorem endOfText_notMem_kinds (p : Production) : Kind.endOfText ∉ p.kinds := by cases p <;> decide

theorem byteOrderMark_notMem_kinds (p : Production) : Kind.byteOrderMark ∉ p.kinds := by cases p <;> decide

theorem unexpected_notMem_kinds (p : Production) : Kind.unexpected ∉ p.kinds := by cases p <;> decide

theorem eq_of_mem_kinds {p q : Production} {k : Kind} (hp : k ∈ p.kinds) (hq : k ∈ q.kinds) : p = q := by
  have hapart : ∀ p ∈ all, ∀ q ∈ all, ∀ k ∈ p.kinds, k ∈ q.kinds → p = q := by decide +kernel
  exact hapart p (mem_all p) q (mem_all q) k hp hq

end Production

/-! ## One step -/

theorem Position.after_offset (p : Position) (s : Text) : (p.after s).offset = p.offset + s.byteLength := by
  induction s generalizing p with
  | nil => rfl
  | cons c s ih =>
    have hstep : (p.step c).offset = p.offset + c.utf8Size := by
      rw [step]
      split <;> rfl
    show ((p.step c).after s).offset = _
    rw [ih, hstep, Text.byteLength_cons, Nat.add_assoc]

namespace Reader

/-- A byte order mark comes first and counts as one. -/
def AtMark (r : Reader) : Prop := r.position.offset = 0 ∧ r.remaining.head? = some '\uFEFF'

theorem rule_of_atMark {r : Reader} (h : AtMark r) : r.rule = (.byteOrderMark, ⟨.byteOrderMark, 1⟩) := if_pos h

theorem rule_of_not_atMark {r : Reader} (h : ¬ AtMark r) :
    r.rule = match Production.select? r.remaining with
      | some (p, lexeme) => (.production p, lexeme)
      | none => (.unexpected, ⟨.unexpected, 1⟩) := if_neg h

/-- What reading the entry `e` at `r` does, `next` being the reader behind it. -/
structure Step (r : Reader) (e : Entry) (next : Reader) : Prop where
  remaining : r.remaining = e.token.value ++ next.remaining
  nonempty : e.token.value ≠ []
  value : e.token.value = r.remaining.take r.rule.2.length
  rule : e.rule = r.rule.1
  kind : e.token.kind = r.rule.2.kind
  line : e.token.line = r.position.line
  column : e.token.column = r.position.column
  position : next.position = r.position.after e.token.value

theorem entry?_eq_none_iff {r : Reader} : r.entry? = none ↔ r.remaining = [] := by
  unfold entry? atEnd
  cases r.remaining <;> simp

theorem entry?_of_ne_nil {r : Reader} (h : r.remaining ≠ []) :
    r.entry? = some
      (⟨r.rule.1, r.rule.2.kind, r.remaining.take r.rule.2.length, r.position.line, r.position.column⟩,
        ⟨r.remaining.drop r.rule.2.length, r.position.after (r.remaining.take r.rule.2.length)⟩) := by
  have hend : ¬ r.atEnd = true := by rwa [atEnd, List.isEmpty_iff]
  unfold entry?
  rw [if_neg hend]
  rfl

theorem rule_length_le {r : Reader} (h : r.remaining ≠ []) : r.rule.2.length ≤ r.remaining.length := by
  have hone : 1 ≤ r.remaining.length := List.length_pos_iff.mpr h
  unfold rule
  split
  · exact hone
  · split
    · rename_i hselect
      exact Production.lexeme?_length_le (Production.select?_lexeme? hselect)
    · exact hone

theorem remaining_ne_nil_of_some {r next : Reader} {e : Entry} (h : r.entry? = some (e, next)) :
    r.remaining ≠ [] := by
  intro hnil
  rw [entry?_eq_none_iff.mpr hnil] at h
  cases h

theorem entry?_step {r next : Reader} {e : Entry} (h : r.entry? = some (e, next)) : Step r e next := by
  have hne := remaining_ne_nil_of_some h
  have hpos := r.rule_length_pos
  rw [entry?_of_ne_nil hne] at h
  cases h
  refine ⟨(List.take_append_drop _ _).symm, ?_, rfl, rfl, rfl, rfl, rfl, rfl⟩
  intro hnil
  rcases List.take_eq_nil_iff.mp hnil with h0 | h0
  · omega
  · exact hne h0

theorem rule_kind_ne_endOfText (r : Reader) : r.rule.2.kind ≠ .endOfText := by
  unfold rule
  split
  · decide
  · split
    · rename_i p l h
      intro he
      exact p.endOfText_notMem_kinds (he ▸ Production.lexeme?_kind (Production.select?_lexeme? h))
    · decide

theorem Step.kind_ne_endOfText {r next : Reader} {e : Entry} (h : Step r e next) : e.token.kind ≠ .endOfText := by
  rw [h.kind]
  exact r.rule_kind_ne_endOfText

theorem Step.drop {r next : Reader} {e : Entry} (h : Step r e next) :
    r.remaining.drop r.rule.2.length = next.remaining := by
  have hsplit := List.take_append_drop r.rule.2.length r.remaining
  rw [← h.value] at hsplit
  exact List.append_cancel_left (hsplit.trans h.remaining)

theorem Step.remaining_ne_nil {r next : Reader} {e : Entry} (h : Step r e next) : r.remaining ≠ [] := by
  rw [h.remaining]
  exact List.append_ne_nil_of_left_ne_nil h.nonempty _

theorem Step.head? {r next : Reader} {e : Entry} (h : Step r e next) : e.token.value.head? = r.remaining.head? := by
  obtain ⟨c, s, hvalue⟩ := List.exists_cons_of_ne_nil h.nonempty
  rw [h.remaining, hvalue]
  rfl

/-- A token of a kind that a production gives is what the productions select, all of them tried in order. -/
theorem Step.select? {r next : Reader} {e : Entry} (h : Step r e next) {p : Production} (hk : e.token.kind ∈ p.kinds) :
    ∃ l, Production.select? r.remaining = some (p, l) ∧ l.kind = e.token.kind ∧
      e.token.value = r.remaining.take l.length ∧ next.remaining = r.remaining.drop l.length := by
  have hkind := h.kind
  have hvalue := h.value
  have hdrop := h.drop
  by_cases hat : r.AtMark
  · rw [rule_of_atMark hat] at hkind
    rw [hkind] at hk
    exact absurd hk p.byteOrderMark_notMem_kinds
  · rw [rule_of_not_atMark hat] at hkind hvalue hdrop
    cases hsel : Production.select? r.remaining with
    | none =>
      rw [hsel] at hkind
      rw [hkind] at hk
      exact absurd hk p.unexpected_notMem_kinds
    | some found =>
      obtain ⟨q, l⟩ := found
      rw [hsel] at hkind hvalue hdrop
      have hq := Production.lexeme?_kind (Production.select?_lexeme? hsel)
      obtain rfl := Production.eq_of_mem_kinds hk (hkind ▸ hq)
      exact ⟨l, rfl, hkind.symm, hvalue, hdrop.symm⟩

theorem Step.lexeme? {r next : Reader} {e : Entry} (h : Step r e next) (p : Production)
    (hk : e.token.kind ∈ p.kinds) :
    ∃ l, p.lexeme? r.remaining = some l ∧ l.kind = e.token.kind ∧
      e.token.value = r.remaining.take l.length ∧ next.remaining = r.remaining.drop l.length := by
  obtain ⟨l, hl, hrest⟩ := h.select? hk
  exact ⟨l, Production.select?_lexeme? hl, hrest⟩

/-! ## Runs -/

/-- A run of steps from one reader to another, and the entries read. -/
inductive Reads : Reader → List Entry → Reader → Prop
  | done (r : Reader) : Reads r [] r
  | step {r next last : Reader} {e : Entry} {es : List Entry} :
      r.entry? = some (e, next) → Reads next es last → Reads r (e :: es) last

/-- A run takes the values of its entries off the front of the text, in order. -/
theorem Reads.remaining {r last : Reader} {es : List Entry} (h : Reads r es last) :
    r.remaining = spelled (es.map Entry.token) ++ last.remaining := by
  induction h with
  | done => rfl
  | step he _ ih => rw [(entry?_step he).remaining, ih, List.map_cons, spelled_cons, List.append_assoc]

theorem Reads.exists_step {r last : Reader} {es : List Entry} (h : Reads r es last) :
    ∀ e ∈ es, ∃ r' next, Step r' e next := by
  induction h with
  | done => intro e he; cases he
  | step he _ ih =>
    intro e hm
    rcases List.mem_cons.mp hm with rfl | hm
    · exact ⟨_, _, entry?_step he⟩
    · exact ih e hm

theorem Reads.length_le {r last : Reader} {es : List Entry} (h : Reads r es last) :
    es.length + last.remaining.length ≤ r.remaining.length := by
  induction h with
  | done => simp
  | step he _ ih =>
    have := entry?_remaining_lt he
    simp only [List.length_cons]
    omega

def finish (r : Reader) : Reader := ⟨[], r.position.after r.remaining⟩

theorem finish_of_remaining_eq_nil {r : Reader} (h : r.remaining = []) : r.finish = r := by
  cases r
  simp_all [finish]

theorem Step.finish {r next : Reader} {e : Entry} (h : Step r e next) : next.finish = r.finish := by
  unfold Reader.finish
  rw [h.position, h.remaining, Position.after_append]

theorem entries_of_none {r : Reader} (h : r.entry? = none) : r.entries = [] := by rw [entries_eq, h]

theorem entries_of_some {r next : Reader} {e : Entry} (h : r.entry? = some (e, next)) :
    r.entries = e :: next.entries := by rw [entries_eq, h]

/-- What holds at the end of a text, and at a place if it holds behind the token there, holds of every reader. -/
theorem read_induction {P : Reader → Prop} (done : ∀ r : Reader, r.entry? = none → P r)
    (read : ∀ (r : Reader) (e : Entry) (next : Reader), r.entry? = some (e, next) → P next → P r)
    (r : Reader) : P r := by
  induction hn : r.remaining.length using Nat.strongRecOn generalizing r with
  | _ n ih =>
    cases he : r.entry? with
    | none => exact done r he
    | some found =>
      obtain ⟨e, next⟩ := found
      exact read r e next he (ih _ (hn ▸ entry?_remaining_lt he) next rfl)

theorem entries_reads (r : Reader) : Reads r r.entries r.finish := by
  induction r using read_induction with
  | done r he =>
    rw [entries_of_none he, finish_of_remaining_eq_nil (entry?_eq_none_iff.mp he)]
    exact .done r
  | read r e next he ih =>
    rw [entries_of_some he, ← (entry?_step he).finish]
    exact .step he ih

end Reader

/-! ## Scans read as their readers do -/

namespace Scan

/-- A scan after `n` calls of `nextToken`. -/
def afterCalls (s : Scan) (n : Nat) : Scan := (fun c : Scan => c.nextToken.scan)^[n] s

/-- The token that call number `n` of `nextToken` gives, counting from zero. -/
def call (s : Scan) (n : Nat) : Token := (s.afterCalls n).nextToken.result

@[simp] theorem afterCalls_zero (s : Scan) : s.afterCalls 0 = s := rfl

theorem afterCalls_succ (s : Scan) (n : Nat) : s.afterCalls (n + 1) = s.nextToken.scan.afterCalls n := rfl

theorem call_succ (s : Scan) (n : Nat) : s.call (n + 1) = s.nextToken.scan.call n := rfl

theorem nextToken_of_none {s : Scan} (h : s.reader.entry? = none) :
    s.nextToken.result = s.reader.endToken ∧ s.nextToken.scan.reader = s.reader := by
  unfold nextToken
  rw [h]
  exact ⟨rfl, rfl⟩

theorem nextToken_of_some {s : Scan} {e : Entry} {next : Reader} (h : s.reader.entry? = some (e, next)) :
    s.nextToken.result = e.token ∧ s.nextToken.scan.reader = next := by
  unfold nextToken
  rw [h]
  exact ⟨rfl, rfl⟩

theorem afterCalls_position (s : Scan) (n : Nat) :
    (s.afterCalls n).position =
      s.position.after (spelled ((s.reader.entries.map Entry.token).take n)) := by
  induction n generalizing s with
  | zero => rfl
  | succ n ih =>
    rw [afterCalls_succ, ih]
    cases he : s.reader.entry? with
    | none =>
      have hr := (nextToken_of_none he).2
      simp only [position, hr, Reader.entries_of_none he, List.map_nil, List.take_nil]
    | some found =>
      obtain ⟨e, next⟩ := found
      have hr := (nextToken_of_some he).2
      simp only [position, hr, Reader.entries_of_some he, List.map_cons, List.take_succ_cons, spelled_cons,
        Position.after_append, (Reader.entry?_step he).position]

theorem afterCalls_entries (s : Scan) (n : Nat) : (s.afterCalls n).reader.entries = s.reader.entries.drop n := by
  induction n generalizing s with
  | zero => rfl
  | succ n ih =>
    rw [afterCalls_succ, ih]
    cases he : s.reader.entry? with
    | none => rw [(nextToken_of_none he).2, Reader.entries_of_none he, List.drop_nil, List.drop_nil]
    | some found =>
      obtain ⟨e, next⟩ := found
      rw [(nextToken_of_some he).2, Reader.entries_of_some he, List.drop_succ_cons]

theorem afterCalls_remaining (s : Scan) (n : Nat) :
    (s.afterCalls n).reader.remaining = spelled ((s.reader.entries.map Entry.token).drop n) := by
  have h := (s.afterCalls n).reader.entries_reads.remaining
  rw [show (s.afterCalls n).reader.finish.remaining = [] from rfl, List.append_nil, afterCalls_entries,
    List.map_drop] at h
  exact h

/-- Call by call, a scan gives the tokens that its reader's entries hold, and then the end token. -/
theorem call_eq (s : Scan) (n : Nat) :
    s.call n = (s.reader.entries.map Entry.token).getD n s.reader.finish.endToken := by
  induction n generalizing s with
  | zero =>
    unfold call
    rw [afterCalls_zero]
    cases he : s.reader.entry? with
    | none =>
      rw [(nextToken_of_none he).1, Reader.entries_of_none he,
        Reader.finish_of_remaining_eq_nil (Reader.entry?_eq_none_iff.mp he)]
      rfl
    | some found => rw [(nextToken_of_some he).1, Reader.entries_of_some he]; rfl
  | succ n ih =>
    rw [call_succ, ih]
    cases he : s.reader.entry? with
    | none => rw [(nextToken_of_none he).2, Reader.entries_of_none he]; rfl
    | some found =>
      obtain ⟨e, next⟩ := found
      rw [(nextToken_of_some he).2, Reader.entries_of_some he, (Reader.entry?_step he).finish]
      rfl

theorem call_induction {P : Scan → Prop} (done : ∀ s : Scan, s.reader.entry? = none → P s)
    (read : ∀ (s : Scan) (e : Entry) (next : Reader), s.reader.entry? = some (e, next) → P s.nextToken.scan → P s)
    (s : Scan) : P s := by
  induction hr : s.reader using Reader.read_induction generalizing s with
  | done r he => exact done s (hr ▸ he)
  | read r e next he ih =>
    subst hr
    exact read s e next he (ih s.nextToken.scan (nextToken_of_some he).2)

section ReadUntil

variable (stop : Token → Bool) (before : List Token) (printed : List Text) {s : Scan} {e : Entry} {next : Reader}

theorem readUntilBehind_of_none (he : s.reader.entry? = none) :
    readUntilBehind stop before printed s = ⟨(before.reverse, none), printed, s.nextToken.scan⟩ := by
  have hend : s.nextToken.result.isEnd = true := by rw [(nextToken_of_none he).1]; rfl
  have hquiet : s.nextToken.printed = [] := by unfold nextToken; rw [he]
  rw [readUntilBehind, dif_pos hend, hquiet, List.append_nil]

theorem not_isEnd_of_some (he : s.reader.entry? = some (e, next)) : ¬ s.nextToken.result.isEnd = true := by
  rw [(nextToken_of_some he).1, Token.isEnd, beq_iff_eq]
  exact (Reader.entry?_step he).kind_ne_endOfText

theorem readUntilBehind_of_stop (he : s.reader.entry? = some (e, next)) (hs : stop e.token = true) :
    readUntilBehind stop before printed s =
      ⟨(before.reverse, some e.token), printed ++ s.nextToken.printed, s.nextToken.scan⟩ := by
  rw [readUntilBehind, dif_neg (not_isEnd_of_some he), (nextToken_of_some he).1, if_pos hs]

theorem readUntilBehind_of_go (he : s.reader.entry? = some (e, next)) (hs : ¬ stop e.token = true) :
    readUntilBehind stop before printed s =
      readUntilBehind stop (e.token :: before) (printed ++ s.nextToken.printed) s.nextToken.scan := by
  rw [readUntilBehind, dif_neg (not_isEnd_of_some he), (nextToken_of_some he).1, if_neg hs]

end ReadUntil

theorem readUntilBehind_result (stop : Token → Bool) (before : List Token) (printed : List Text) (s : Scan) :
    (readUntilBehind stop before printed s).result =
      (before.reverse ++ (s.reader.entries.map Entry.token).takeWhile (fun t => !stop t),
        (s.reader.entries.map Entry.token).find? stop) := by
  induction s using call_induction generalizing before printed with
  | done s he => rw [readUntilBehind_of_none stop before printed he]; simp [Reader.entries_of_none he]
  | read s e next he ih =>
    by_cases hs : stop e.token = true
    · rw [readUntilBehind_of_stop stop before printed he hs]
      simp [Reader.entries_of_some he, hs]
    · rw [readUntilBehind_of_go stop before printed he hs, ih, (nextToken_of_some he).2]
      simp [Reader.entries_of_some he, hs]

theorem readUntil_result (stop : Token → Bool) (s : Scan) :
    (s.readUntil stop).result =
      ((s.reader.entries.map Entry.token).takeWhile (fun t => !stop t),
        (s.reader.entries.map Entry.token).find? stop) :=
  readUntilBehind_result stop [] [] s

/-- Reading to the end of a text gives its tokens. -/
theorem rest_ofText (s : Text) : (ofText s).rest.result = tokenize s := by
  show ((ofText s).readUntil fun _ => false).result.1 = tokenize s
  rw [readUntil_result]
  exact List.takeWhile_eq_self_iff.mpr fun _ _ => rfl

/-! ## Scans behind requests -/

/-- The scans that requests lead to. -/
inductive Reachable : Scan → Prop
  | start (s : Text) : Reachable (ofText s)
  | serve {s : Scan} (request : Request) : Reachable s → Reachable (s.serve request).2

/-- What every call of `nextToken` keeps, reading up to a token keeps. -/
theorem readUntilBehind_scan {P : Scan → Prop} (hP : ∀ s : Scan, P s → P s.nextToken.scan) (stop : Token → Bool)
    (before : List Token) (printed : List Text) {s : Scan} (h : P s) :
    P (readUntilBehind stop before printed s).scan := by
  fun_induction readUntilBehind stop before printed s with
  | case1 before printed s step hend => exact hP s h
  | case2 before printed s step hend hstop => exact hP s h
  | case3 before printed s step hend hstop ih => exact ih (hP s h)

theorem serve_scan {P : Scan → Prop} (hP : ∀ s : Scan, P s → P s.nextToken.scan) (request : Request) {s : Scan}
    (h : P s) : P (s.serve request).2 := by
  cases request with
  | nextToken => exact hP s h
  | next => exact hP s h
  | rest => exact readUntilBehind_scan hP _ _ _ h
  | strict => exact readUntilBehind_scan hP _ _ _ h

end Scan

end CssLexer
