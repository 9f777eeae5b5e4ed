/-
  CssLexer.Proofs.Strict — the strict run against the lenient one.

  A strict run is the lenient run broken off behind its first malformed token. Up to there nothing is printed, because
  a well-formed token gives no warning and leaves the log as it is; at the malformed token one line is printed, the
  first of its scan. `Token.Reports` says kind by kind what a malformed token stands for, apart from the tests that the
  run itself makes.

  Proved:
  - `readUntilBehind_scan_eq`: reading up to a token makes one call for each token before it and one for itself.
  - `readUntilBehind_printed`: reading up to a malformed token prints what that token alone gives.
  - `strict_agrees`: so the strict run accepts exactly the texts without malformed tokens, with the lenient tokens and
    in silence, and refuses any other with the fault and the one warning of the first malformed token.
-/

import CssLexer.Proofs.Places

namespace CssLexer

/-! ## What a malformed token reports -/

/-- What is wrong with a malformed token, and the message of its warning, by its kind. -/
inductive Token.Reports : Token → Malformation → Text → Prop
  | badString {t : Token} : t.kind = .badString → Reports t .unterminatedString "unterminated string"
  | badUri {t : Token} : t.kind = .badUri → Reports t .malformedUrl "malformed url(...)"
  | unexpected {t : Token} {c : Char} : t.kind = .unexpected → t.value = [c] →
      Reports t .unexpectedCharacter ("unexpected character " ++ codePoint c)

namespace Token

theorem isMalformed_iff {t : Token} : t.isMalformed = true ↔ t.kind ∈ [Kind.badString, .badUri, .unexpected] := by
  unfold isMalformed
  cases t.kind <;> decide

theorem Reports.fault? {t : Token} {m : Malformation} {message : Text} (h : Reports t m message) :
    t.fault? = some ⟨m, t.value, t.line, t.column⟩ := by
  unfold Token.fault?
  cases h with
  | badString hk => rw [hk]; rfl
  | badUri hk => rw [hk]; rfl
  | unexpected hk _ => rw [hk]; rfl

theorem Reports.warning? {t : Token} {m : Malformation} {message : Text} (h : Reports t m message) :
    t.warning? = some message := by
  unfold Token.warning?
  cases h with
  | badString hk => rw [hk]; rfl
  | badUri hk => rw [hk]; rfl
  | unexpected hk hv => rw [hk, hv]; rfl

theorem warning?_of_wellFormed {t : Token} (h : ¬ t.isMalformed = true) : t.warning? = none := by
  unfold isMalformed Kind.isMalformed at h
  rw [Option.not_isSome_iff_eq_none] at h
  rw [Token.warning?, h]
  rfl

end Token

namespace Reader

theorem rule_length_of_unexpected {r : Reader} (h : r.rule.2.kind = .unexpected) : r.rule.2.length = 1 := by
  unfold rule at h ⊢
  split at h
  · cases h
  · rename_i hbom
    rw [if_neg hbom]
    split at h
    · rename_i p l hl
      exact absurd (h ▸ Production.lexeme?_kind (Production.select?_lexeme? hl)) p.unexpected_notMem_kinds
    · rfl

theorem Step.value_of_unexpected {r next : Reader} {e : Entry} (h : Step r e next) (hk : e.token.kind = .unexpected) :
    ∃ c, e.token.value = [c] := by
  rw [h.kind] at hk
  have hv := h.value
  rw [rule_length_of_unexpected hk] at hv
  cases hr : r.remaining with
  | nil => rw [hr, List.take_nil] at hv; exact absurd hv h.nonempty
  | cons c s => rw [hr] at hv; exact ⟨c, hv⟩

theorem Step.exists_reports {r next : Reader} {e : Entry} (h : Step r e next)
    (hk : e.token.kind ∈ [Kind.badString, .badUri, .unexpected]) : ∃ m message, e.token.Reports m message := by
  simp only [List.mem_cons, List.not_mem_nil, or_false] at hk
  rcases hk with hk | hk | hk
  · exact ⟨_, _, .badString hk⟩
  · exact ⟨_, _, .badUri hk⟩
  · obtain ⟨c, hc⟩ := h.value_of_unexpected hk
    exact ⟨_, _, .unexpected hk hc⟩

theorem Reads.exists_reports {r last : Reader} {es : List Entry} (h : Reads r es last) :
    ∀ t ∈ es.map Entry.token, t.kind ∈ [Kind.badString, .badUri, .unexpected] →
      ∃ m message, t.Reports m message := by
  intro t ht hk
  obtain ⟨e, he, rfl⟩ := List.mem_map.mp ht
  obtain ⟨r', next, hstep⟩ := h.exists_step e he
  exact hstep.exists_reports hk

end Reader

/-! ## Reading up to a token -/

namespace Scan

/-- Reading up to a token makes a call for each token before it, and one more for it or for the end of the text. -/
theorem readUntilBehind_scan_eq (stop : Token → Bool) (before : List Token) (printed : List Text) (s : Scan) :
    (readUntilBehind stop before printed s).scan =
      s.afterCalls (((s.reader.entries.map Entry.token).takeWhile fun t => !stop t).length + 1) := by
  induction s using call_induction generalizing before printed with
  | done s he =>
    rw [readUntilBehind_of_none stop before printed he, Reader.entries_of_none he]
    rfl
  | read s e next he ih =>
    rw [Reader.entries_of_some he, List.map_cons]
    by_cases hs : stop e.token = true
    · rw [readUntilBehind_of_stop stop before printed he hs, List.takeWhile_cons_of_neg (by simp [hs])]
      rfl
    · rw [readUntilBehind_of_go stop before printed he hs, ih, (nextToken_of_some he).2,
        List.takeWhile_cons_of_pos (by simp [hs]), List.length_cons, s.afterCalls_succ]

theorem nextToken_printed {s : Scan} {e : Entry} {next : Reader} (he : s.reader.entry? = some (e, next)) :
    s.nextToken.printed = (report s.log e.token).1 ∧ s.nextToken.scan.log = (report s.log e.token).2 := by
  unfold nextToken
  rw [he]
  exact ⟨rfl, rfl⟩

theorem report_of_wellFormed (log : WarningLog) {t : Token} (h : ¬ t.isMalformed = true) :
    report log t = ([], log) := by
  rw [report, Token.warning?_of_wellFormed h]

/-- Reading up to a malformed token prints what that token gives, and nothing before it. -/
theorem readUntilBehind_printed (before : List Token) (printed : List Text) (s : Scan) :
    (readUntilBehind Token.isMalformed before printed s).printed =
      printed ++
        (((s.reader.entries.map Entry.token).find? Token.isMalformed).elim [] fun t => (report s.log t).1) := by
  induction s using call_induction generalizing before printed with
  | done s he =>
    rw [readUntilBehind_of_none _ before printed he, Reader.entries_of_none he]
    exact (List.append_nil printed).symm
  | read s e next he ih =>
    obtain ⟨hprinted, hlog⟩ := nextToken_printed he
    rw [Reader.entries_of_some he, List.map_cons]
    by_cases hs : e.token.isMalformed = true
    · rw [readUntilBehind_of_stop _ before printed he hs, List.find?_cons_of_pos hs, Option.elim_some, hprinted]
    · rw [report_of_wellFormed s.log hs] at hprinted hlog
      rw [readUntilBehind_of_go _ before printed he hs, ih, hprinted, hlog, List.append_nil, (nextToken_of_some he).2,
        List.find?_cons_of_neg hs]

theorem strict_result (s : Scan) :
    s.strict.result =
      match (s.reader.entries.map Entry.token).find? Token.isMalformed >>= Token.fault? with
      | none => .ok ((s.reader.entries.map Entry.token).takeWhile fun t => !t.isMalformed)
      | some fault => .error fault := by
  unfold strict Outcome.map
  rw [readUntil_result]
  rfl

theorem report_ofText (s : Text) {t : Token} {message : Text} (h : t.warning? = some message) :
    (report (ofText s).log t).1 = ["[lemur CSS] ⚠ " ++ message] := by
  unfold report
  rw [h]
  rfl

end Scan

/-! ## Both runs -/

def WellFormed (ts : List Token) : Prop := ∀ t ∈ ts, t.kind ∉ [Kind.badString, .badUri, .unexpected]

theorem wellFormed_iff {ts : List Token} : WellFormed ts ↔ ∀ t ∈ ts, ¬ t.isMalformed = true := by
  simp only [WellFormed, Token.isMalformed_iff]

theorem find?_isMalformed_eq_none_iff {ts : List Token} : ts.find? Token.isMalformed = none ↔ WellFormed ts := by
  rw [wellFormed_iff, List.find?_eq_none]

theorem takeWhile_of_wellFormed {ts : List Token} (h : WellFormed ts) :
    ts.takeWhile (fun t => !t.isMalformed) = ts := by
  rw [List.takeWhile_eq_self_iff]
  intro t ht
  rw [Bool.not_eq_true', ← Bool.not_eq_true]
  exact wellFormed_iff.mp h t ht

theorem exists_first_malformed {ts : List Token} (h : ¬ WellFormed ts) :
    ∃ before t behind, ts = before ++ t :: behind ∧ WellFormed before ∧ t.isMalformed = true ∧
      ts.find? Token.isMalformed = some t ∧ ts.takeWhile (fun t => !t.isMalformed) = before := by
  cases hf : ts.find? Token.isMalformed with
  | none => exact absurd (find?_isMalformed_eq_none_iff.mp hf) h
  | some t =>
    obtain ⟨ht, before, behind, rfl, hbefore⟩ := List.find?_eq_some_iff_append.mp hf
    have hwell : WellFormed before := by
      rw [wellFormed_iff]
      intro u hu
      simpa using hbefore u hu
    refine ⟨before, t, behind, rfl, hwell, ht, rfl, ?_⟩
    rw [List.takeWhile_append, takeWhile_of_wellFormed hwell, if_pos rfl, List.takeWhile_cons_of_neg (by simp [ht]),
      List.append_nil]

/-- The strict run against the tokens of the lenient one. It accepts a text exactly if none of them is malformed, and
then gives them all and prints nothing. Otherwise it refuses the text with the fault of the first malformed token, its
kind, value, line and column; the one line it prints is the warning of that token; and it has made the calls up to that
token and no more, so what is behind it is still to be read. -/
theorem strict_agrees (s : Text) :
    (∀ ts, tokenizeStrict s = .ok ts ↔ WellFormed (tokenize s) ∧ ts = tokenize s) ∧
    (WellFormed (tokenize s) → (Scan.ofText s).strict.printed = []) ∧
    (¬ WellFormed (tokenize s) → ∃ before t behind malformation, ∃ message : Text,
      tokenize s = before ++ t :: behind ∧ WellFormed before ∧ t.Reports malformation message ∧
      tokenizeStrict s = .error ⟨malformation, t.value, t.line, t.column⟩ ∧
      (Scan.ofText s).strict.printed = ["[lemur CSS] ⚠ " ++ message] ∧
      (Scan.ofText s).strict.scan = (Scan.ofText s).afterCalls (before.length + 1) ∧
      (Scan.ofText s).strict.scan.reader.remaining = spelled behind) := by
  have hresult : tokenizeStrict s = _ := (Scan.ofText s).strict_result
  have hprinted : (Scan.ofText s).strict.printed = _ := Scan.readUntilBehind_printed [] [] (Scan.ofText s)
  have hscan : (Scan.ofText s).strict.scan = _ := Scan.readUntilBehind_scan_eq Token.isMalformed [] [] (Scan.ofText s)
  rw [← tokenize_eq] at hresult hprinted hscan
  by_cases hwell : WellFormed (tokenize s)
  · rw [find?_isMalformed_eq_none_iff.mpr hwell] at hresult hprinted
    rw [takeWhile_of_wellFormed hwell] at hresult
    refine ⟨?_, fun _ => hprinted, fun h => absurd hwell h⟩
    intro ts
    rw [hresult]
    constructor
    · intro h
      cases h
      exact ⟨hwell, rfl⟩
    · rintro ⟨-, rfl⟩
      rfl
  · obtain ⟨before, t, behind, hsplit, hbefore, ht, hfind, htake⟩ := exists_first_malformed hwell
    have hmem : t ∈ tokenize s := by rw [hsplit]; exact List.mem_append_right _ List.mem_cons_self
    obtain ⟨m, message, hreports⟩ :=
      (Reader.entries_reads (Reader.ofText s)).exists_reports t hmem (Token.isMalformed_iff.mp ht)
    rw [hfind, Option.bind_eq_bind, Option.bind_some, hreports.fault?] at hresult
    rw [hfind, Option.elim_some, Scan.report_ofText s hreports.warning?, List.nil_append] at hprinted
    rw [htake] at hscan
    refine ⟨?_, fun h => absurd h hwell, fun _ => ⟨before, t, behind, m, message, hsplit, hbefore, hreports, hresult,
      hprinted, hscan, ?_⟩⟩
    · intro ts
      rw [hresult]
      constructor
      · intro h; cases h
      · rintro ⟨h, -⟩; exact absurd h hwell
    · rw [hscan, Scan.afterCalls_remaining, ← tokenize_eq, hsplit, ← List.drop_drop, List.drop_left]
      rfl

end CssLexer
