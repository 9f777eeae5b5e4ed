/-
  CssLexer.Proofs.Warnings — which lines a scan prints, by which calls, and how many at most.

  A log grows by the messages that are new to it, one line for each (`Gives`). So after some calls the log of a scan
  holds the messages of the malformed tokens read so far, each where it came first, and a call prints a line exactly
  for a message that is not among them. A message tells the kind of its token, and the character where no production
  accepts one; such a character is a control character of ASCII and no blank, which leaves few messages.

  Proved:
  - `nextToken_gives`, `serve_gives`: what one call adds to the log it prints, and so does every request.
  - `afterCalls_messages`: what the log holds after some calls.
  - `Step.mem_refused`: the characters that no production accepts.
  - `warnings_once`: the lines of a whole text, call by call and together.
-/

import CssLexer.Proofs.Numerals
import CssLexer.Proofs.Restart
import CssLexer.Proofs.Strict
import Mathlib.Data.List.Nodup
import Mathlib.Data.List.Perm.Subperm

namespace CssLexer

/-! ## Logs -/

namespace WarningLog

/-- From `log` to `log'` the lines `printed` were given, one for each message that was new. -/
def Gives (log : WarningLog) (printed : List Text) (log' : WarningLog) : Prop :=
  ∃ news : List Text, printed = news.map log.line ∧ log' = { log with messages := log.messages ++ news } ∧
    news.Nodup ∧ ∀ message ∈ news, message ∉ log.messages

variable {log log' log'' : WarningLog} {printed more : List Text}

theorem Gives.refl (log : WarningLog) : log.Gives [] log := ⟨[], rfl, by simp, List.nodup_nil, by simp⟩

theorem Gives.trans (h : log.Gives printed log') (h' : log'.Gives more log'') : log.Gives (printed ++ more) log'' := by
  obtain ⟨news, rfl, rfl, hnodup, hnew⟩ := h
  obtain ⟨news', rfl, rfl, hnodup', hnew'⟩ := h'
  refine ⟨news ++ news', ?_, ?_, ?_, ?_⟩
  · rw [List.map_append]
    rfl
  · rw [List.append_assoc]
  · refine hnodup.append hnodup' ?_
    intro message hm hm'
    exact hnew' message hm' (List.mem_append_right _ hm)
  · intro message hm
    rcases List.mem_append.mp hm with hm | hm
    · exact hnew message hm
    · intro hold
      exact hnew' message hm (List.mem_append_left _ hold)

theorem Gives.nodup (h : log.Gives printed log') : printed.Nodup := by
  obtain ⟨news, rfl, -, hnodup, -⟩ := h
  exact hnodup.map fun _ _ heq => List.append_cancel_left heq

theorem line_of_css (h : log.component = "CSS") (message : Text) : log.line message = "[lemur CSS] ⚠ " ++ message := by
  obtain ⟨component, messages⟩ := log
  subst h
  rfl

theorem warnOnce_of_mem {message : Text} (h : message ∈ log.messages) : log.warnOnce message = ([], log) := by
  rw [warnOnce, contains, List.contains_iff_mem.mpr h]
  rfl

theorem warnOnce_of_notMem {message : Text} (h : message ∉ log.messages) :
    log.warnOnce message = ([log.line message], { log with messages := log.messages ++ [message] }) := by
  rw [warnOnce, contains, if_neg (by simpa using h)]

theorem warnOnce_gives (log : WarningLog) (message : Text) :
    log.Gives (log.warnOnce message).1 (log.warnOnce message).2 := by
  by_cases h : message ∈ log.messages
  · rw [warnOnce_of_mem h]
    exact .refl log
  · rw [warnOnce_of_notMem h]
    exact ⟨[message], rfl, rfl, List.nodup_singleton message, by simpa using h⟩

end WarningLog

namespace Scan

theorem report_gives (log : WarningLog) (t : Token) : log.Gives (report log t).1 (report log t).2 := by
  unfold report
  split
  · exact .refl log
  · exact log.warnOnce_gives _

theorem nextToken_printed_eq (s : Scan) : s.nextToken.printed = (report s.log s.nextToken.result).1 := by
  unfold nextToken
  split <;> rfl

theorem nextToken_log_eq (s : Scan) : s.nextToken.scan.log = (report s.log s.nextToken.result).2 := by
  unfold nextToken
  split <;> rfl

theorem nextToken_gives (s : Scan) : s.log.Gives s.nextToken.printed s.nextToken.scan.log := by
  rw [nextToken_printed_eq, nextToken_log_eq]
  exact report_gives s.log s.nextToken.result

theorem readUntilBehind_gives (stop : Token → Bool) (before : List Token) {log : WarningLog} {printed : List Text}
    {s : Scan} (h : log.Gives printed s.log) :
    log.Gives (readUntilBehind stop before printed s).printed (readUntilBehind stop before printed s).scan.log := by
  fun_induction readUntilBehind stop before printed s with
  | case1 before printed s step hend => exact h.trans s.nextToken_gives
  | case2 before printed s step hend hstop => exact h.trans s.nextToken_gives
  | case3 before printed s step hend hstop ih => exact ih (h.trans s.nextToken_gives)

/-- Whatever is asked of a scan, it prints what its log comes to hold. -/
theorem serve_gives (s : Scan) (request : Request) :
    s.log.Gives (s.serve request).1.printed (s.serve request).2.log := by
  cases request with
  | nextToken => exact s.nextToken_gives
  | next => exact s.nextToken_gives
  | rest => exact readUntilBehind_gives _ _ (.refl s.log)
  | strict => exact readUntilBehind_gives _ _ (.refl s.log)

/-! ## What a log holds -/

theorem eraseDups_concat (messages : List Text) (message : Text) :
    (messages ++ [message]).eraseDups =
      if message ∈ messages then messages.eraseDups else messages.eraseDups ++ [message] := by
  rw [List.eraseDups_append]
  by_cases h : message ∈ messages
  · rw [if_pos h, List.removeAll, List.filter_cons_of_neg (by simp [h])]
    simp
  · rw [if_neg h, List.removeAll, List.filter_cons_of_pos (by simp [h]), List.filter_nil, List.eraseDups_cons]
    rfl

/-- A log that holds some messages, each once, holds with a token also that of the token. -/
theorem report_messages {log : WarningLog} {messages : List Text} (h : log.messages = messages.eraseDups) (t : Token) :
    (report log t).2.messages = (messages ++ t.warning?.toList).eraseDups := by
  unfold report
  split
  · rename_i hnone
    rw [hnone, Option.toList_none, List.append_nil]
    exact h
  · rename_i message hsome
    rw [hsome, Option.toList_some, eraseDups_concat]
    by_cases hm : message ∈ messages
    · rw [if_pos hm, WarningLog.warnOnce_of_mem (by rwa [h, List.mem_eraseDups])]
      exact h
    · rw [if_neg hm, WarningLog.warnOnce_of_notMem (by rwa [h, List.mem_eraseDups]), ← h]

def messages (ts : List Token) : List Text := ts.filterMap Token.warning?

theorem messages_cons (t : Token) (ts : List Token) : messages (t :: ts) = t.warning?.toList ++ messages ts := by
  unfold messages
  cases h : t.warning? with
  | none => rw [List.filterMap_cons_none h]; rfl
  | some message => rw [List.filterMap_cons_some h]; rfl

/-- After some calls a log holds, each once, the messages that it held and those of the tokens read. -/
theorem afterCalls_messages {s : Scan} {given : List Text} (h : s.log.messages = given.eraseDups) (k : Nat) :
    (s.afterCalls k).log.messages =
      (given ++ messages ((s.reader.entries.map Entry.token).take k)).eraseDups := by
  induction k generalizing s given with
  | zero =>
    rw [List.take_zero, messages, List.filterMap_nil, List.append_nil]
    exact h
  | succ k ih =>
    have hlog := report_messages h s.nextToken.result
    rw [← nextToken_log_eq] at hlog
    rw [afterCalls_succ, ih hlog]
    cases he : s.reader.entry? with
    | none =>
      obtain ⟨hend, hreader⟩ := nextToken_of_none he
      rw [hend, hreader, Reader.entries_of_none he, List.map_nil, List.take_nil, List.take_nil]
      exact congrArg _ (List.append_nil _)
    | some found =>
      obtain ⟨e, next⟩ := found
      obtain ⟨htoken, hreader⟩ := nextToken_of_some he
      rw [htoken, hreader, Reader.entries_of_some he, List.map_cons, List.take_succ_cons, messages_cons,
        List.append_assoc]

theorem afterCalls_component (s : Scan) (k : Nat) : (s.afterCalls k).log.component = s.log.component := by
  induction k generalizing s with
  | zero => rfl
  | succ k ih =>
    obtain ⟨news, -, hlog, -⟩ := s.nextToken_gives
    rw [afterCalls_succ, ih, hlog]

theorem readUntilBehind_calls (before : List Token) (printed : List Text) (s : Scan) :
    (readUntilBehind (fun _ => false) before printed s).printed =
      printed ++ (List.range (s.reader.entries.length + 1)).flatMap fun k => (s.afterCalls k).nextToken.printed := by
  induction s using call_induction generalizing before printed with
  | done s he =>
    rw [readUntilBehind_of_none _ before printed he, Reader.entries_of_none he]
    have hquiet : s.nextToken.printed = [] := by
      rw [nextToken_printed_eq, (nextToken_of_none he).1]
      rfl
    simp [hquiet]
  | read s e next he ih =>
    rw [readUntilBehind_of_go _ before printed he (by simp), ih, Reader.entries_of_some he, (nextToken_of_some he).2,
      List.length_cons, List.range_succ_eq_map (n := next.entries.length + 1), List.flatMap_cons, List.flatMap_map,
      List.append_assoc]
    rfl

theorem report_lines (log : WarningLog) (t : Token) :
    (report log t).1.length ≤ 1 ∧ ∀ line, line ∈ (report log t).1 ↔
      ∃ message, t.warning? = some message ∧ line = log.line message ∧ message ∉ log.messages := by
  unfold report
  split
  · rename_i hnone
    simp [hnone]
  · rename_i message hsome
    by_cases hm : message ∈ log.messages
    · rw [WarningLog.warnOnce_of_mem hm]
      simp [hsome, hm]
    · rw [WarningLog.warnOnce_of_notMem hm]
      simp [hsome, hm]

end Scan

/-! ## What malformed tokens report -/

/-- Messages tell the kinds of their tokens, and the character that no production accepts. -/
theorem Token.Reports.eq_iff {t u : Token} {m m' : Malformation} {message message' : Text} (h : t.Reports m message)
    (h' : u.Reports m' message') :
    message = message' ↔ t.kind = u.kind ∧ (t.kind = .unexpected → t.value = u.value) := by
  cases h with
  | badString hk =>
    cases h' with
    | badString hk' => simp [hk, hk']
    | badUri hk' => simp [hk, hk']
    | unexpected hk' hv' => simp [hk, hk']
  | badUri hk =>
    cases h' with
    | badString hk' => simp [hk, hk']
    | badUri hk' => simp [hk, hk']
    | unexpected hk' hv' => simp [hk, hk']
  | @unexpected c hk hv =>
    cases h' with
    | badString hk' => simp [hk, hk']
    | badUri hk' => simp [hk, hk']
    | @unexpected d hk' hv' =>
      rw [hk, hk', hv, hv']
      constructor
      · intro heq
        rw [codePoint_injective (List.append_cancel_left heq)]
        exact ⟨rfl, fun _ => rfl⟩
      · rintro ⟨-, heq⟩
        rw [List.singleton_inj.mp (heq rfl)]

theorem warning?_iff_reports {s : Text} {t : Token} (h : t ∈ tokenize s) {message : Text} :
    t.warning? = some message ↔ ∃ m, t.Reports m message := by
  constructor
  · intro hwarning
    have hmalformed : t.isMalformed = true := by
      by_contra hwell
      rw [Token.warning?_of_wellFormed hwell] at hwarning
      cases hwarning
    obtain ⟨m, message', hreports⟩ :=
      (Reader.entries_reads (Reader.ofText s)).exists_reports t h (Token.isMalformed_iff.mp hmalformed)
    rw [hreports.warning?, Option.some_inj] at hwarning
    exact ⟨m, hwarning ▸ hreports⟩
  · rintro ⟨m, hreports⟩
    exact hreports.warning?

theorem forall₂_reports {s : Text} {ts : List Token} (h : ∀ t ∈ ts, t ∈ tokenize s) :
    List.Forall₂ (fun t message => ∃ m, t.Reports m message)
      (ts.filter fun t => t.kind ∈ [Kind.badString, .badUri, .unexpected]) (Scan.messages ts) := by
  induction ts with
  | nil => exact .nil
  | cons t ts ih =>
    have hrest := ih fun u hu => h u (List.mem_cons_of_mem t hu)
    by_cases hk : t.kind ∈ [Kind.badString, .badUri, .unexpected]
    · obtain ⟨m, message, hreports⟩ :=
        (Reader.entries_reads (Reader.ofText s)).exists_reports t (h t List.mem_cons_self) hk
      rw [List.filter_cons_of_pos (by simpa using hk), Scan.messages_cons, hreports.warning?]
      exact .cons ⟨m, hreports⟩ hrest
    · have hnone : t.warning? = none := Token.warning?_of_wellFormed (mt Token.isMalformed_iff.mp hk)
      rw [List.filter_cons_of_neg (by simpa using hk), Scan.messages_cons, hnone]
      exact hrest

theorem messages_eq_nil_iff {s : Text} : Scan.messages (tokenize s) = [] ↔ WellFormed (tokenize s) := by
  have hlength := (forall₂_reports (s := s) fun _ h => h).length_eq
  rw [← List.length_eq_zero_iff, ← hlength, List.length_eq_zero_iff, List.filter_eq_nil_iff]
  simp only [decide_eq_true_eq]
  rfl

/-! ## How many messages there are -/

/-- The characters that no production accepts: the control characters of ASCII, without the blanks. -/
def refused : List Char :=
  ((List.range 32 ++ [127]).map Char.ofNat).filter fun c => !isWhitespace c

theorem mem_refused : ∀ c : Char, isControl c = true ∧ isWhitespace c = false ∧ isNonascii c = false → c ∈ refused := by
  apply forall_char_of_ascii
  · decide
  · rintro c hc ⟨-, -, hascii⟩
    rw [hc] at hascii
    cases hascii

namespace Production

theorem mem_refused_of_select?_eq_none {c : Char} {r : Text} (h : select? (c :: r) = none) : c ∈ refused := by
  have hopens (p : Production) : p.opens (c :: r) = false := by
    rw [← isSome_lexeme?, (firstOf_eq_none_iff orderly_all).mp h p]
    rfl
  have hdelim : (!isControl c) = false := hopens .delim
  have hspace : isWhitespace c = false := hopens .whitespace
  have hascii : isNonascii c = false := by
    by_contra hna
    obtain ⟨l, hl, -⟩ := select?_of_nonascii (by simpa using hna) r
    rw [hl] at h
    cases h
  exact mem_refused c ⟨by simpa using hdelim, hspace, hascii⟩

end Production

namespace Reader

theorem Step.mem_refused {r next : Reader} {e : Entry} (h : Step r e next) (hk : e.token.kind = .unexpected) :
    ∃ c ∈ refused, e.token.value = [c] := by
  obtain ⟨c, hc⟩ := h.value_of_unexpected hk
  refine ⟨c, ?_, hc⟩
  have hremaining := h.remaining
  rw [hc, List.singleton_append] at hremaining
  rw [h.kind] at hk
  by_cases hmark : r.AtMark
  · rw [rule_of_atMark hmark] at hk
    cases hk
  · rw [rule_of_not_atMark hmark] at hk
    cases hsel : Production.select? r.remaining with
    | none => exact Production.mem_refused_of_select?_eq_none (hremaining ▸ hsel)
    | some found =>
      rw [hsel] at hk
      exact absurd (hk ▸ Production.lexeme?_kind (Production.select?_lexeme? hsel)) (Production.unexpected_notMem_kinds _)

end Reader

/-- Every message that a token can be reported with. -/
def possibleMessages : List Text :=
  "unterminated string" :: "malformed url(...)" :: refused.map fun c => "unexpected character " ++ codePoint c

theorem mem_possibleMessages {s : Text} {t : Token} (ht : t ∈ tokenize s) {message : Text}
    (h : t.warning? = some message) : message ∈ possibleMessages := by
  obtain ⟨m, hreports⟩ := (warning?_iff_reports ht).mp h
  obtain ⟨r, e, next, hstep, rfl⟩ := exists_step_of_mem ht
  cases hreports with
  | badString _ => exact List.mem_cons_self
  | badUri _ => exact List.mem_cons_of_mem _ List.mem_cons_self
  | @unexpected c hk hv =>
    obtain ⟨d, hd, hv'⟩ := hstep.mem_refused hk
    obtain rfl : c = d := by simpa using hv.symm.trans hv'
    exact List.mem_cons_of_mem _ (List.mem_cons_of_mem _ (List.mem_map_of_mem hd))

/-! ## The lines of a text -/

theorem afterCalls_ofText_messages (s : Text) (k : Nat) :
    ((Scan.ofText s).afterCalls k).log.messages = (Scan.messages ((tokenize s).take k)).eraseDups :=
  @Scan.afterCalls_messages (Scan.ofText s) [] rfl k

theorem rest_printed_eq (s : Text) :
    (Scan.ofText s).rest.printed =
      (Scan.messages (tokenize s)).eraseDups.map (fun message : Text => "[lemur CSS] ⚠ " ++ message) ∧
    (Scan.messages (tokenize s)).eraseDups.Nodup := by
  obtain ⟨news, hprinted, hlog, hnodup, -⟩ :=
    Scan.readUntilBehind_gives (fun _ => false) [] (.refl (Scan.ofText s).log)
  have hall : (tokenize s).takeWhile (fun _ => !false) = tokenize s := List.takeWhile_eq_self_iff.mpr fun _ _ => rfl
  have hnews := congrArg WarningLog.messages hlog
  rw [Scan.readUntilBehind_scan_eq, afterCalls_ofText_messages, ← tokenize_eq, hall,
    List.take_of_length_le (Nat.le_succ _)] at hnews
  have hnews : (Scan.messages (tokenize s)).eraseDups = news := hnews
  rw [hnews]
  exact ⟨hprinted, hnodup⟩

/-- What call `k` prints: the message of its token, if no token before it has that message. -/
theorem call_printed (s : Text) (k : Nat) :
    (((Scan.ofText s).afterCalls k).nextToken.printed).length ≤ 1 ∧
    ∀ line, line ∈ ((Scan.ofText s).afterCalls k).nextToken.printed ↔
      ∃ message : Text, ((Scan.ofText s).call k).warning? = some message ∧ line = "[lemur CSS] ⚠ " ++ message ∧
        ∀ t ∈ (tokenize s).take k, t.warning? ≠ some message := by
  have hline (message : Text) : ((Scan.ofText s).afterCalls k).log.line message = "[lemur CSS] ⚠ " ++ message :=
    WarningLog.line_of_css (Scan.afterCalls_component (Scan.ofText s) k) message
  have hold (message : Text) : message ∉ ((Scan.ofText s).afterCalls k).log.messages ↔
      ∀ t ∈ (tokenize s).take k, t.warning? ≠ some message := by
    rw [afterCalls_ofText_messages, List.mem_eraseDups, Scan.messages, List.mem_filterMap]
    simp
  have h := Scan.report_lines ((Scan.ofText s).afterCalls k).log ((Scan.ofText s).call k)
  simp only [hline, hold] at h
  rw [Scan.nextToken_printed_eq]
  exact h

theorem call_warning?_iff (s : Text) (k : Nat) (message : Text) :
    ((Scan.ofText s).call k).warning? = some message ↔ ∃ m, ((Scan.ofText s).call k).Reports m message := by
  by_cases hk : k < (tokenize s).length
  · rw [call_of_lt hk]
    exact warning?_iff_reports (List.getElem_mem hk)
  · rw [call_of_ge (Nat.le_of_not_lt hk)]
    constructor
    · intro h
      cases h
    · rintro ⟨m, h⟩
      exact h.warning?

/-- The lines that a scan of a text prints. Read to the end, they are the first occurrences of the messages that its
malformed tokens report, in order, and they are printed call by call: a call prints at most one line, which it prints
exactly for a token that reports a message which no token before it reports. Two malformed tokens report the same
message exactly if they have the same kind and, where no production accepts the character, the same character. A text
prints nothing exactly if none of its tokens is malformed, and never more than 31 lines. -/
theorem warnings_once (s : Text) :
    (∃ messages : List Text,
      List.Forall₂ (fun t message => ∃ m, t.Reports m message)
        ((tokenize s).filter fun t => t.kind ∈ [Kind.badString, .badUri, .unexpected]) messages ∧
      (Scan.ofText s).rest.printed = messages.eraseDups.map fun message : Text => "[lemur CSS] ⚠ " ++ message) ∧
    ((Scan.ofText s).rest.printed =
      (List.range ((tokenize s).length + 1)).flatMap fun k => ((Scan.ofText s).afterCalls k).nextToken.printed) ∧
    (∀ k, let o := ((Scan.ofText s).afterCalls k).nextToken
      (∀ t, (tokenize s)[k]? = some t → o.result = t) ∧ o.printed.length ≤ 1 ∧
      ∀ line, line ∈ o.printed ↔ ∃ m message, o.result.Reports m message ∧ line = "[lemur CSS] ⚠ " ++ message ∧
        ∀ t ∈ (tokenize s).take k, ∀ m', ¬ t.Reports m' message) ∧
    (∀ (t u : Token) (m m' : Malformation) (message message' : Text), t.Reports m message → u.Reports m' message' →
      (message = message' ↔ t.kind = u.kind ∧ (t.kind = .unexpected → t.value = u.value))) ∧
    ((Scan.ofText s).rest.printed = [] ↔ WellFormed (tokenize s)) ∧
    (Scan.ofText s).rest.printed.length ≤ 31 := by
  obtain ⟨hprinted, hnodup⟩ := rest_printed_eq s
  refine ⟨⟨Scan.messages (tokenize s), forall₂_reports fun _ h => h, hprinted⟩, ?_, ?_, ?_, ?_, ?_⟩
  · have hcalls := Scan.readUntilBehind_calls [] [] (Scan.ofText s)
    rw [List.nil_append] at hcalls
    rw [tokenize_eq, List.length_map]
    exact hcalls
  · intro k o
    obtain ⟨hlength, hlines⟩ := call_printed s k
    refine ⟨?_, hlength, ?_⟩
    · intro t ht
      obtain ⟨hk, rfl⟩ := List.getElem?_eq_some_iff.mp ht
      exact call_of_lt hk
    · intro line
      rw [hlines]
      constructor
      · rintro ⟨message, hmessage, rfl, hnew⟩
        obtain ⟨m, hreports⟩ := (call_warning?_iff s k message).mp hmessage
        exact ⟨m, message, hreports, rfl, fun t ht m' h => hnew t ht h.warning?⟩
      · rintro ⟨m, message, hreports, rfl, hnew⟩
        refine ⟨message, (call_warning?_iff s k message).mpr ⟨m, hreports⟩, rfl, ?_⟩
        intro t ht hmessage
        obtain ⟨m', h⟩ := (warning?_iff_reports (List.mem_of_mem_take ht)).mp hmessage
        exact hnew t ht m' h
  · intro t u m m' message message' h h'
    exact h.eq_iff h'
  · rw [hprinted, List.map_eq_nil_iff, ← messages_eq_nil_iff, List.eq_nil_iff_forall_not_mem,
      List.eq_nil_iff_forall_not_mem]
    simp only [List.mem_eraseDups]
  · have hsubset : (Scan.messages (tokenize s)).eraseDups ⊆ possibleMessages := by
      intro message hm
      rw [List.mem_eraseDups, Scan.messages, List.mem_filterMap] at hm
      obtain ⟨t, ht, hwarning⟩ := hm
      exact mem_possibleMessages ht hwarning
    have hcount : possibleMessages.length = 31 := by decide
    rw [hprinted, List.length_map, ← hcount]
    exact (List.subperm_of_subset hnodup hsubset).length_le

/-- Some text prints that many. -/
example : (Scan.ofText (refused ++ "'\nurl(")).rest.printed.length = 31 := by decide +kernel

end CssLexer
