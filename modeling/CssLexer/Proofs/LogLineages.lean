/-
  CssLexer.Proofs.LogLineages — a warning is given once along a lineage of logs.

  The members of the pool are warning logs. A log has been warned of what it was asked to warn of itself and, if it is
  a copy, of what its source had been warned of before the copying (its lineage). What a log answers depends on these
  messages alone, so no log notices what the others are asked; and from any moment on it prints the messages that are
  new to its lineage, in the order in which they first come.

  Proved:
  - `solo_serve`: the lines that requests in a row print, and the log afterwards, exactly.
  - `remembers_solo`: what a log says of itself after the requests of its lineage.
  - `given_once_along_lineages`: every log and every answer of every run, from lineages alone.
-/

import CssLexer.Proofs.Lineage
import CssLexer.Proofs.Warnings
import Mathlib.Data.Finset.Card

namespace CssLexer.WarningLog

/-! ## Requests in a row -/

def Request.warned? : Request → Option Text
  | .warnOnce message => some message
  | .contains _ => none

/-- The messages that requests warn of, repeated ones included. -/
def warned (requests : List Request) : List Text := requests.filterMap Request.warned?

/-- The messages that a log gives for requests: those that it has not given before, each where it first comes. -/
def news (log : WarningLog) (requests : List Request) : List Text :=
  ((warned requests).filter (· ∉ log.messages)).eraseDups

variable {log : WarningLog} {requests : List Request} {message : Text}

@[simp] theorem warned_append (requests more : List Request) :
    warned (requests ++ more) = warned requests ++ warned more := List.filterMap_append

theorem mem_news : message ∈ log.news requests ↔ message ∈ warned requests ∧ message ∉ log.messages := by
  simp [news]

theorem news_contains (log : WarningLog) (requests : List Request) (message : Text) :
    log.news (requests ++ [.contains message]) = log.news requests := by
  have hwarned : warned (requests ++ [.contains message]) = warned requests ++ [] := warned_append requests _
  rw [news, hwarned, List.append_nil]
  rfl

theorem news_warnOnce (log : WarningLog) (requests : List Request) (message : Text) :
    log.news (requests ++ [.warnOnce message]) =
      if message ∈ log.messages ++ log.news requests then log.news requests else log.news requests ++ [message] := by
  have hwarned : warned (requests ++ [.warnOnce message]) = warned requests ++ [message] := warned_append requests _
  rw [news, hwarned, List.filter_append]
  by_cases hold : message ∈ log.messages
  · have hnone : [message].filter (fun m => decide (m ∉ log.messages)) = [] := by simp [hold]
    rw [hnone, List.append_nil, if_pos (List.mem_append_left _ hold)]
    rfl
  · have hone : [message].filter (fun m => decide (m ∉ log.messages)) = [message] := by simp [hold]
    rw [hone, Scan.eraseDups_concat]
    simp [news, hold]

theorem serve_warnOnce_of_mem (h : message ∈ log.messages) : log.serve (.warnOnce message) = (⟨none, []⟩, log) := by
  rw [serve, warnOnce_of_mem h]

theorem serve_warnOnce_of_notMem (h : message ∉ log.messages) :
    log.serve (.warnOnce message) =
      (⟨none, [log.line message]⟩, { log with messages := log.messages ++ [message] }) := by
  rw [serve, warnOnce_of_notMem h]

/-- Requests in a row print one line for each message that is new to the log, which is what the log adds. -/
theorem solo_serve (log : WarningLog) (requests : List Request) :
    (Pool.solo serve log requests).1.flatMap Answer.printed = (log.news requests).map log.line ∧
    (Pool.solo serve log requests).2 = { log with messages := log.messages ++ log.news requests } := by
  induction requests using List.reverseRecOn with
  | nil => simp [news, warned]
  | append_singleton requests request ih =>
    obtain ⟨hprinted, hlog⟩ := ih
    rw [Pool.solo_append, Pool.solo_cons, Pool.solo_nil, List.flatMap_append, List.flatMap_singleton, hprinted]
    generalize (Pool.solo serve log requests).2 = now at hlog
    have hmessages : now.messages = log.messages ++ log.news requests := congrArg WarningLog.messages hlog
    have hline : now.line = log.line := by rw [hlog]; rfl
    cases request with
    | contains message =>
      rw [news_contains]
      exact ⟨List.append_nil _, hlog⟩
    | warnOnce message =>
      rw [news_warnOnce, ← hmessages]
      by_cases hm : message ∈ now.messages
      · rw [if_pos hm, serve_warnOnce_of_mem hm]
        exact ⟨List.append_nil _, hlog⟩
      · rw [if_neg hm, serve_warnOnce_of_notMem hm, List.map_append, hmessages, List.append_assoc, hline, hlog]
        exact ⟨rfl, rfl⟩

/-! ## What a log says of itself -/

/-- A log of `component` that has been warned of the messages in `given`, and of no others. -/
structure Remembers (log : WarningLog) (component : Text) (given : List Text) : Prop where
  component : log.component = component
  contains : ∀ message, log.contains message = true ↔ message ∈ given
  size : log.size = given.toFinset.card
  isEmpty : log.isEmpty = true ↔ log.size = 0

theorem nodup_solo (component : Text) (requests : List Request) :
    (Pool.solo serve (empty component) requests).2.messages.Nodup := by
  refine Pool.solo_induction serve (P := fun log => log.messages.Nodup) ?_ List.nodup_nil requests
  intro log request h
  cases request with
  | contains message => exact h
  | warnOnce message =>
    by_cases hm : message ∈ log.messages
    · simpa [serve, warnOnce_of_mem hm] using h
    · simpa [serve, warnOnce_of_notMem hm] using h.concat hm

theorem mem_messages_solo (component : Text) (requests : List Request) (message : Text) :
    message ∈ (Pool.solo serve (empty component) requests).2.messages ↔ message ∈ warned requests := by
  rw [(solo_serve _ requests).2]
  simp [mem_news, empty]

theorem remembers_solo (component : Text) (requests : List Request) :
    (Pool.solo serve (empty component) requests).2.Remembers component (warned requests) := by
  have hmem := mem_messages_solo component requests
  have hcomponent := congrArg WarningLog.component (solo_serve (empty component) requests).2
  have hnodup := nodup_solo component requests
  generalize (Pool.solo serve (empty component) requests).2 = log at hmem hcomponent hnodup
  refine ⟨hcomponent, ?_, ?_, ?_⟩
  · intro message
    rw [contains, List.contains_iff_mem, hmem]
  · have hset : (warned requests).toFinset = log.messages.toFinset := by
      ext message
      rw [List.mem_toFinset, List.mem_toFinset, hmem]
    rw [hset, List.toFinset_card_of_nodup hnodup, size]
  · rw [isEmpty, List.isEmpty_iff, size, List.length_eq_zero_iff]

theorem Remembers.mem_iff {component : Text} {given : List Text} (h : log.Remembers component given) :
    message ∈ log.messages ↔ message ∈ given := by
  rw [← h.contains message, WarningLog.contains, List.contains_iff_mem]

theorem Remembers.serve_warnOnce {component : Text} {given : List Text} (h : log.Remembers component given)
    (message : Text) :
    (log.serve (.warnOnce message)).1 =
      ⟨none, if message ∈ given then [] else ["[lemur " ++ component ++ "] ⚠ " ++ message]⟩ := by
  have hline : log.line message = "[lemur " ++ component ++ "] ⚠ " ++ message := by
    obtain rfl := h.component
    rfl
  by_cases hm : message ∈ given
  · rw [if_pos hm, serve_warnOnce_of_mem (h.mem_iff.mpr hm)]
  · rw [if_neg hm, serve_warnOnce_of_notMem (mt h.mem_iff.mp hm), hline]

theorem Remembers.serve_contains {component : Text} {given : List Text} (h : log.Remembers component given)
    (message : Text) : (log.serve (.contains message)).1 = ⟨some (decide (message ∈ given)), []⟩ := by
  rw [serve, Bool.eq_iff_iff.mpr ((h.contains message).trans decide_eq_true_iff.symm)]

/-- From any moment on a log prints the first occurrences of the messages that it had not been warned of. -/
theorem Remembers.solo_printed {component : Text} {given : List Text} (h : log.Remembers component given)
    (requests : List Request) :
    (Pool.solo serve log requests).1.flatMap Answer.printed =
      ((warned requests).filter (· ∉ given)).eraseDups.map fun message =>
        "[lemur " ++ component ++ "] ⚠ " ++ message := by
  have hnews : log.news requests = ((warned requests).filter (· ∉ given)).eraseDups := by
    simp only [news, h.mem_iff]
  rw [(solo_serve log requests).1, hnews, ← h.component]
  rfl

/-! ## Logs that are asked and copied -/

/-- Empty logs of any components, asked and copied by any steps, `now` being the logs before step `k` and `next` those
behind it. Each of them goes back to one of the empty logs, whose component it has, and remembers what its lineage was
warned of: `contains` says whether a message is among that, `size` how many messages these are, repeated ones counted
once, and `isEmpty` whether there are none. If step `k` warns the log of a message, the one line of the message is
printed if the lineage was not yet warned of it, and otherwise nothing. A log changes only by what it is asked itself,
and a copy joins as its source then stands. From step `k` on the log prints one line for each message that is new to
its lineage, in the order in which they first come; for `k` just behind the copying that made the log, and 0 if it
stood there from the start, these are all the lines that it ever prints. -/
theorem given_once_along_lineages (components : List Text) (steps : List (Pool.Step Request)) (k : Nat) :
    let start := components.map empty
    let answers := (Pool.run serve start steps).1
    let now := (Pool.run serve start (steps.take k)).2
    let next := (Pool.run serve start (steps.take (k + 1))).2
    let lineages := Pool.lineages components.length (steps.take k)
    now.length = lineages.length ∧
    ∀ i l, lineages[i]? = some l → ∃ component log, components[l.origin]? = some component ∧ now[i]? = some log ∧
      let given := warned l.requests
      let line (message : Text) : Text := "[lemur " ++ component ++ "] ⚠ " ++ message
      log.Remembers component given ∧
      (∀ message, steps[k]? = some (.ask i (.warnOnce message)) →
        answers[k]? = some (.answered ⟨none, if message ∈ given then [] else [line message]⟩)) ∧
      (∀ message, steps[k]? = some (.ask i (.contains message)) →
        answers[k]? = some (.answered ⟨some (decide (message ∈ given)), []⟩)) ∧
      (steps[k]? = some (.copy i) → answers[k]? = some (.copied now.length) ∧ next = now ++ [log]) ∧
      ((∀ request, steps[k]? ≠ some (.ask i request)) → next[i]? = some log) ∧
      (Pool.answersOf i (steps.drop k) (answers.drop k)).flatMap Answer.printed =
        ((warned (Pool.asked i (steps.drop k))).filter (· ∉ given)).eraseDups.map line := by
  intro start answers now next lineages
  have hfollows : Pool.Follows serve start now lineages := by
    have h := Pool.run_follows serve start (steps.take k)
    rwa [List.length_map] at h
  refine ⟨hfollows.length, ?_⟩
  intro i l hl
  obtain ⟨root, hroot, hi⟩ := hfollows.member i l hl
  rw [List.getElem?_map, Option.map_eq_some_iff] at hroot
  obtain ⟨component, hcomponent, rfl⟩ := hroot
  have hlog := remembers_solo component l.requests
  refine ⟨component, _, hcomponent, hi, hlog, ?_, ?_, ?_, ?_, ?_⟩
  · intro message hstep
    have hanswer := Pool.run_answer serve start hstep
    rwa [Pool.perform_ask_of_some serve _ hi, hlog.serve_warnOnce] at hanswer
  · intro message hstep
    have hanswer := Pool.run_answer serve start hstep
    rwa [Pool.perform_ask_of_some serve _ hi, hlog.serve_contains] at hanswer
  · intro hstep
    have hanswer := Pool.run_answer serve start hstep
    have hnext := Pool.run_next serve start hstep
    rw [Pool.perform_copy_of_some serve hi] at hanswer hnext
    exact ⟨hanswer, hnext⟩
  · intro hother
    exact Pool.run_of_not_asked serve start hi hother
  · by_cases hk : k ≤ steps.length
    · rw [show answers.drop k = _ from Pool.drop_run serve start hk, (Pool.run_member serve hi (steps.drop k)).1]
      exact hlog.solo_printed _
    · rw [List.drop_of_length_le (Nat.le_of_not_le hk)]
      rfl

/-- A copy is silent about what its source was warned of before the copying, and gives what its source is warned of
later. -/
theorem given_once_along_lineages_copied :
    let steps : List (Pool.Step Request) :=
      [.ask 0 (.warnOnce "a"), .copy 0, .ask 0 (.warnOnce "b"), .ask 1 (.warnOnce "a"), .ask 1 (.warnOnce "b")]
    let answers := (Pool.run serve [empty "CSS"] steps).1
    (Pool.lineages 1 (steps.take 3))[1]? = some ⟨0, [.warnOnce "a"]⟩ ∧
    steps[3]? = some (.ask 1 (.warnOnce "a")) ∧
    answers[3]? = some (.answered ⟨none, []⟩) ∧
    (Pool.answersOf 1 (steps.drop 3) (answers.drop 3)).flatMap Answer.printed = ["[lemur CSS] ⚠ b"] := by
  intro steps answers
  have hlineage : (Pool.lineages 1 (steps.take 3))[1]? = some ⟨0, [.warnOnce "a"]⟩ := by decide
  have hstep : steps[3]? = some (.ask 1 (.warnOnce "a")) := by rfl
  obtain ⟨component, log, hcomponent, -, -, hwarn, -, -, -, hprinted⟩ :=
    (given_once_along_lineages ["CSS"] steps 3).2 1 _ hlineage
  obtain rfl : "CSS" = component := by simpa using hcomponent
  exact ⟨hlineage, hstep, hwarn "a" hstep, hprinted.trans (by decide)⟩

end CssLexer.WarningLog
