/-
  CssLexer.Proofs.Phases — what the phase of a scan says about its last call, and that the end of a text is final.

  Every request makes some calls of `nextToken`, one at least, and the last of them decides what the request comes to
  (`serve_last`). A call leaves the phase that the kind of its token asks for, so the phase behind a request can be read
  off its answer. Two things hold along all requests on a scan of a text: the way that is left ends where the text
  ends, and a finished scan has nothing left to read.

  Proved:
  - `nextToken_phase`: the phase behind a call; `nextToken_offset_lt`: a call that gives a token moves on.
  - `OnText.serve`: the invariant; `serve_of_atEnd`: what is answered at the end of a text.
  - `phase_served`: phase, offset and answers, after any requests on a scan of any text.
-/

import CssLexer.Proofs.Lineage
import CssLexer.Proofs.Strict

namespace CssLexer.Scan

/-! ## One call -/

theorem nextToken_kind_eq_endOfText_iff {s : Scan} :
    s.nextToken.result.kind = .endOfText ↔ s.reader.remaining = [] := by
  cases he : s.reader.entry? with
  | none =>
    rw [(nextToken_of_none he).1]
    exact iff_of_true rfl (Reader.entry?_eq_none_iff.mp he)
  | some found =>
    rw [(nextToken_of_some he).1]
    exact iff_of_false (Reader.entry?_step he).kind_ne_endOfText (Reader.remaining_ne_nil_of_some he)

/-- The phase behind a call, from the kind of the token that it gives. -/
theorem nextToken_phase (s : Scan) :
    (s.nextToken.scan.phase = .finished ↔ s.nextToken.result.kind = .endOfText) ∧
    (s.nextToken.scan.phase = .recovered ↔ s.nextToken.result.kind = .unexpected) := by
  cases he : s.reader.entry? with
  | none =>
    unfold nextToken
    rw [he]
    simp [Reader.endToken]
  | some found =>
    have hkind := (Reader.entry?_step he).kind_ne_endOfText
    unfold nextToken
    rw [he]
    by_cases hk : found.1.token.kind = .unexpected
    · simp [hk]
    · simp [hk, hkind]

theorem nextToken_offset_lt {s : Scan} (h : s.nextToken.result.kind ≠ .endOfText) :
    s.position.offset < s.nextToken.scan.position.offset := by
  cases he : s.reader.entry? with
  | none => exact absurd (nextToken_kind_eq_endOfText_iff.mpr (Reader.entry?_eq_none_iff.mp he)) h
  | some found =>
    unfold position
    rw [(nextToken_of_some he).2]
    exact (Reader.entry?_step he).offset_lt

theorem nextToken_offset_le (s : Scan) : s.position.offset ≤ s.nextToken.scan.position.offset := by
  by_cases h : s.nextToken.result.kind = .endOfText
  · have he := Reader.entry?_eq_none_iff.mpr (nextToken_kind_eq_endOfText_iff.mp h)
    unfold position
    rw [(nextToken_of_none he).2]
  · exact Nat.le_of_lt (nextToken_offset_lt h)

/-! ## Calls in a row -/

theorem afterCalls_succ_eq (s : Scan) (n : Nat) : s.afterCalls (n + 1) = (s.afterCalls n).nextToken.scan :=
  Function.iterate_succ_apply' _ n s

theorem afterCalls_offset_le (s : Scan) (n : Nat) : s.position.offset ≤ (s.afterCalls n).position.offset := by
  induction n with
  | zero => exact Nat.le_refl _
  | succ n ih =>
    rw [afterCalls_succ_eq]
    exact Nat.le_trans ih (s.afterCalls n).nextToken_offset_le

/-- The call behind those that give the tokens before the first one with a property gives that one, or the end token
if there is none. -/
theorem call_takeWhile (stop : Token → Bool) (s : Scan) :
    s.call ((s.reader.entries.map Entry.token).takeWhile fun t => !stop t).length =
      ((s.reader.entries.map Entry.token).find? stop).getD s.reader.finish.endToken := by
  rw [call_eq]
  induction s.reader.entries.map Entry.token with
  | nil => rfl
  | cons t ts ih =>
    by_cases ht : stop t = true
    · rw [List.takeWhile_cons_of_neg (by simp [ht]), List.find?_cons_of_pos ht]
      rfl
    · rw [List.takeWhile_cons_of_pos (by simp [ht]), List.find?_cons_of_neg ht]
      exact ih

/-! ## What a request comes to -/

/-- What was read tells that the text is at its end. -/
def Reading.Ends : Reading → Prop
  | .token t => t.kind = .endOfText
  | .item t => t = none
  | .tokens _ => True
  | .verdict (.ok _) => True
  | .verdict (.error _) => False

/-- What was read last is a character that no production accepts. -/
def Reading.Refuses : Reading → Prop
  | .token t => t.kind = .unexpected
  | .item none => False
  | .item (some t) => t.kind = .unexpected
  | .tokens _ => False
  | .verdict (.ok _) => False
  | .verdict (.error f) => f.malformation = .unexpectedCharacter

theorem exists_fault {t : Token} (h : t.isMalformed = true) :
    ∃ m, t.fault? = some ⟨m, t.value, t.line, t.column⟩ ∧ (m = .unexpectedCharacter ↔ t.kind = .unexpected) := by
  rw [Token.isMalformed_iff] at h
  simp only [List.mem_cons, List.not_mem_nil, or_false] at h
  unfold Token.fault?
  rcases h with hk | hk | hk <;> rw [hk]
  · exact ⟨_, rfl, iff_of_false (by decide) (by decide)⟩
  · exact ⟨_, rfl, iff_of_false (by decide) (by decide)⟩
  · exact ⟨_, rfl, iff_of_true rfl rfl⟩

/-- A request is some calls, one at least, and comes to what the last of them gives. -/
theorem serve_last (s : Scan) (request : Request) :
    ∃ n, (s.serve request).2 = s.afterCalls (n + 1) ∧
      ((s.serve request).1.reading.Ends ↔ (s.call n).kind = .endOfText) ∧
      ((s.serve request).1.reading.Refuses ↔ (s.call n).kind = .unexpected) := by
  have hfinish : s.reader.finish.endToken.kind ≠ .unexpected := by simp [Reader.endToken]
  cases request with
  | nextToken => exact ⟨0, rfl, Iff.rfl, Iff.rfl⟩
  | next =>
    refine ⟨0, rfl, ?_⟩
    have hreading : (s.serve .next).1.reading = .item (if s.nextToken.result.isEnd then none else some _) := rfl
    rw [hreading]
    by_cases hend : s.nextToken.result.isEnd = true
    · have hk : (s.call 0).kind = .endOfText := by rwa [Token.isEnd, beq_iff_eq] at hend
      rw [if_pos hend, hk]
      exact ⟨iff_of_true rfl rfl, iff_of_false id (by decide)⟩
    · rw [if_neg hend]
      rw [Token.isEnd, beq_iff_eq] at hend
      exact ⟨iff_of_false (Option.some_ne_none _) hend, Iff.rfl⟩
  | rest =>
    refine ⟨_, readUntilBehind_scan_eq (fun _ => false) [] [] s, ?_⟩
    rw [call_takeWhile, List.find?_eq_none.mpr (by simp)]
    exact ⟨iff_of_true trivial rfl, iff_of_false id hfinish⟩
  | strict =>
    refine ⟨_, readUntilBehind_scan_eq Token.isMalformed [] [] s, ?_⟩
    have hreading : (s.serve .strict).1.reading = .verdict s.strict.result := rfl
    rw [call_takeWhile, hreading, strict_result]
    cases hfind : (s.reader.entries.map Entry.token).find? Token.isMalformed with
    | none => exact ⟨iff_of_true trivial rfl, iff_of_false id hfinish⟩
    | some t =>
      have ht := List.find?_some hfind
      obtain ⟨m, hfault, hrefused⟩ := exists_fault ht
      have hend : t.kind ≠ .endOfText := by
        intro hk
        rw [Token.isMalformed_iff, hk] at ht
        revert ht
        decide
      rw [Option.bind_eq_bind, Option.bind_some, hfault, Option.getD_some]
      exact ⟨iff_of_false id hend, hrefused⟩

/-! ## At the end of the text -/

/-- What a scan of `s` answers when nothing is left to read: the end token behind `s` where a token is asked for, no
token otherwise, and no warnings. -/
def endAnswer (s : Text) : Request → Answer
  | .nextToken => ⟨.token ⟨.endOfText, [], (Position.behind s).line, (Position.behind s).column⟩, []⟩
  | .next => ⟨.item none, []⟩
  | .rest => ⟨.tokens [], []⟩
  | .strict => ⟨.verdict (.ok []), []⟩

/-- What requests keep of a scan of `s`. -/
structure OnText (s : Text) (c : Scan) : Prop where
  /-- The way that is left ends where `s` ends. -/
  finish : c.reader.finish = (Reader.ofText s).finish
  /-- A finished scan has nothing left to read. -/
  finished : c.phase = .finished → c.reader.remaining = []

variable {s : Text} {c : Scan}

theorem onText_ofText (s : Text) : OnText s (ofText s) := ⟨rfl, fun h => by cases h⟩

theorem OnText.nextToken (h : OnText s c) : OnText s c.nextToken.scan := by
  cases he : c.reader.entry? with
  | none =>
    have hreader := (nextToken_of_none he).2
    refine ⟨by rw [hreader, h.finish], fun _ => ?_⟩
    rw [hreader]
    exact Reader.entry?_eq_none_iff.mp he
  | some found =>
    refine ⟨by rw [(nextToken_of_some he).2, (Reader.entry?_step he).finish, h.finish], fun hphase => ?_⟩
    have hnil := nextToken_kind_eq_endOfText_iff.mp (c.nextToken_phase.1.mp hphase)
    exact absurd hnil (Reader.remaining_ne_nil_of_some he)

theorem OnText.serve (h : OnText s c) (request : Request) : OnText s (c.serve request).2 :=
  serve_scan (fun _ => OnText.nextToken) request h

theorem OnText.solo (h : OnText s c) (requests : List Request) : OnText s (Pool.solo Scan.serve c requests).2 :=
  Pool.solo_induction Scan.serve (fun _ request h => h.serve request) h requests

theorem OnText.position_eq (h : OnText s c) (hnil : c.reader.remaining = []) : c.position = .behind s := by
  have hfinish := h.finish
  rw [Reader.finish_of_remaining_eq_nil hnil] at hfinish
  rw [position, hfinish]
  exact Position.start_after s

theorem OnText.serve_of_atEnd (h : OnText s c) (hnil : c.reader.remaining = []) (request : Request) :
    c.serve request = (endAnswer s request, { c with phase := .finished }) := by
  have he := Reader.entry?_eq_none_iff.mpr hnil
  have hend : c.nextToken =
      ⟨⟨.endOfText, [], (Position.behind s).line, (Position.behind s).column⟩, [], { c with phase := .finished }⟩ := by
    rw [← h.position_eq hnil, Scan.nextToken, he]
    rfl
  cases request with
  | nextToken =>
    unfold Scan.serve read
    rw [hend]
    rfl
  | next =>
    unfold Scan.serve read next
    rw [hend]
    rfl
  | rest =>
    unfold Scan.serve read rest readUntil
    rw [readUntilBehind_of_none _ _ _ he, hend]
    rfl
  | strict =>
    unfold Scan.serve read strict readUntil
    rw [readUntilBehind_of_none _ _ _ he, hend]
    rfl

/-- A finished scan answers every request so, and stays as it is. -/
theorem OnText.solo_of_finished (h : OnText s c) (hphase : c.phase = .finished) (requests : List Request) :
    Pool.solo Scan.serve c requests = (requests.map (endAnswer s), c) := by
  have hsame (request : Request) : c.serve request = (endAnswer s request, c) := by
    rw [h.serve_of_atEnd (h.finished hphase), ← hphase]
  induction requests with
  | nil => rfl
  | cons request requests ih => rw [Pool.solo_cons, hsame, ih, List.map_cons]

/-! ## After any requests -/

/-- Whatever has been asked of a scan of `s`, the phase behind a request tells how it went: finished exactly if it came
to the end of the text, recovered exactly if what it read last is a character that no production accepts, scanning
otherwise. No request moves the scan back, and one that does not come to the end moves it on. A finished scan stands
behind `s`; the call that finished it gave the end token at that place, or nothing; and whatever is asked of it later,
it gives that same end token, or nothing, and remains the scan that it is, with its place, its phase and its log. -/
theorem phase_served (s : Text) (requests : List Request) (request : Request) :
    let before := (Pool.solo serve (ofText s) requests).2
    let answer := (before.serve request).1
    let after := (before.serve request).2
    (after.phase = .finished ↔ answer.reading.Ends) ∧
    (after.phase = .recovered ↔ answer.reading.Refuses) ∧
    (after.phase = .scanning ↔ ¬ answer.reading.Ends ∧ ¬ answer.reading.Refuses) ∧
    before.position.offset ≤ after.position.offset ∧
    (¬ answer.reading.Ends → before.position.offset < after.position.offset) ∧
    (after.phase = .finished →
      after.position = .behind s ∧
      (request ∈ [Request.nextToken, .next] → answer = endAnswer s request) ∧
      ∀ later : List Request, Pool.solo serve after later = (later.map (endAnswer s), after)) := by
  intro before answer after
  have hbefore : OnText s before := (onText_ofText s).solo requests
  have hafter : OnText s after := hbefore.serve request
  obtain ⟨n, hn, hends, hrefuses⟩ := before.serve_last request
  have hlast : after = (before.afterCalls n).nextToken.scan := hn.trans (before.afterCalls_succ_eq n)
  have hfinished : after.phase = .finished ↔ answer.reading.Ends := by
    rw [hends, hlast]
    exact (before.afterCalls n).nextToken_phase.1
  have hrecovered : after.phase = .recovered ↔ answer.reading.Refuses := by
    rw [hrefuses, hlast]
    exact (before.afterCalls n).nextToken_phase.2
  have hoffset := before.afterCalls_offset_le n
  refine ⟨hfinished, hrecovered, ?_, ?_, ?_, ?_⟩
  · rw [← hfinished, ← hrecovered]
    cases after.phase <;> decide
  · rw [hlast]
    exact Nat.le_trans hoffset (before.afterCalls n).nextToken_offset_le
  · intro hgoes
    rw [hlast]
    exact Nat.lt_of_le_of_lt hoffset (nextToken_offset_lt (fun hk => hgoes (hends.mpr hk)))
  · intro hphase
    refine ⟨hafter.position_eq (hafter.finished hphase), ?_, hafter.solo_of_finished hphase⟩
    intro hrequest
    have hcall : after = before.nextToken.scan := by
      simp only [List.mem_cons, List.not_mem_nil, or_false] at hrequest
      rcases hrequest with rfl | rfl <;> rfl
    rw [hcall, before.nextToken_phase.1, nextToken_kind_eq_endOfText_iff] at hphase
    exact congrArg Prod.fst (hbefore.serve_of_atEnd hphase request)

/-- A control character, a letter, and the end of the text, which the third call finds and every later one again. -/
theorem phase_served_control :
    let calls (n : Nat) := (Pool.solo serve (ofText "\x01a") (List.replicate n .next)).2
    (List.range 4).map (fun n => (calls n).phase) = [.scanning, .recovered, .scanning, .finished] ∧
    ((calls 2).serve .nextToken).2.phase = .finished ∧
    ((calls 2).serve .nextToken).1 = endAnswer "\x01a" .nextToken ∧
    ∀ later : List Request, Pool.solo serve ((calls 2).serve .nextToken).2 later =
      (later.map (endAnswer "\x01a"), ((calls 2).serve .nextToken).2) := by
  intro calls
  have hphase : ((calls 2).serve .nextToken).2.phase = .finished := by decide +kernel
  obtain ⟨-, -, -, -, -, hend⟩ := phase_served "\x01a" (List.replicate 2 .next) .nextToken
  obtain ⟨-, hanswer, hlater⟩ := hend hphase
  exact ⟨by decide +kernel, hphase, hanswer (by decide), hlater⟩

end CssLexer.Scan
