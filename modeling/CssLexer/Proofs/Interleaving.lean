/-
  CssLexer.Proofs.Interleaving — scans that are asked in turn do not see one another.

  The members of the pool are scans, one for each text to begin with. Whatever the steps, a scan is what its text's scan
  becomes on the requests of its lineage, alone and in order; so each answer is the one that this scan would give alone.
  A copy has the log of its source at the copying, warnings given before it included, and no line is printed twice along
  a lineage.

  Proved:
  - `solo_gives`: what requests in a row print is what the log comes to hold.
  - `scans_independent`: every member and every answer of every interleaving, from lineages alone.
-/

import CssLexer.Proofs.Lineage
import CssLexer.Proofs.Warnings

namespace CssLexer

theorem Scan.solo_gives (s : Scan) (requests : List Request) :
    s.log.Gives ((Pool.solo serve s requests).1.flatMap Answer.printed) (Pool.solo serve s requests).2.log := by
  induction requests generalizing s with
  | nil => exact .refl s.log
  | cons request requests ih => exact (s.serve_gives request).trans (ih (s.serve request).2)

/-- Scans of any texts, asked and copied by any steps, `now` being the scans before step `k` and `next` those behind
it. Each of them goes back to one of the texts, and is what a scan of that text becomes on the requests of its lineage,
with no other scan around; no line is printed twice along a lineage, neither by a scan and then by a copy of it. If
step `k` asks the scan, the answer is what that scan would answer alone, and the others stay as they are. If it copies
the scan, the copy joins as it then stands, with all that it has still to read and all the warnings that it has
given. -/
theorem scans_independent (texts : List Text) (steps : List (Pool.Step Scan.Request)) (k : Nat) :
    let start := texts.map Scan.ofText
    let now := (Pool.run Scan.serve start (steps.take k)).2
    let next := (Pool.run Scan.serve start (steps.take (k + 1))).2
    let answer? := (Pool.run Scan.serve start steps).1[k]?
    let lineages := Pool.lineages texts.length (steps.take k)
    now.length = lineages.length ∧
    ∀ i l, lineages[i]? = some l → ∃ text, texts[l.origin]? = some text ∧
      let alone := Pool.solo Scan.serve (Scan.ofText text) l.requests
      now[i]? = some alone.2 ∧
      (alone.1.flatMap Scan.Answer.printed).Nodup ∧
      (∀ request, steps[k]? = some (.ask i request) →
        answer? = some (.answered (alone.2.serve request).1) ∧
        next[i]? = some (alone.2.serve request).2 ∧ ∀ j, j ≠ i → next[j]? = now[j]?) ∧
      (steps[k]? = some (.copy i) → answer? = some (.copied now.length) ∧ next = now ++ [alone.2]) := by
  intro start now next answer? lineages
  have hfollows : Pool.Follows Scan.serve start now lineages := by
    have h := Pool.run_follows Scan.serve start (steps.take k)
    rwa [List.length_map] at h
  refine ⟨hfollows.length, ?_⟩
  intro i l hl
  obtain ⟨scan, hscan, hi⟩ := hfollows.member i l hl
  rw [List.getElem?_map, Option.map_eq_some_iff] at hscan
  obtain ⟨text, htext, rfl⟩ := hscan
  refine ⟨text, htext, hi, (Scan.solo_gives _ l.requests).nodup, ?_, ?_⟩
  · intro request hstep
    have hanswer := Pool.run_answer Scan.serve start hstep
    have hnext := Pool.run_next Scan.serve start hstep
    rw [Pool.perform_ask_of_some Scan.serve request hi] at hanswer hnext
    have hlt : i < now.length := (List.getElem?_eq_some_iff.mp hi).1
    refine ⟨hanswer, ?_, ?_⟩
    · rw [show next = _ from hnext]
      exact List.getElem?_set_self hlt
    · intro j hj
      rw [show next = _ from hnext]
      exact List.getElem?_set_ne (Ne.symm hj)
  · intro hstep
    have hanswer := Pool.run_answer Scan.serve start hstep
    have hnext := Pool.run_next Scan.serve start hstep
    rw [Pool.perform_copy_of_some Scan.serve hi] at hanswer hnext
    exact ⟨hanswer, hnext⟩

/-- A copy made behind an unterminated string: asked for the rest, it gives what its source would give alone, and does
not warn of the next such string. -/
theorem scans_independent_copied :
    let steps : List (Pool.Step Scan.Request) := [.ask 0 .nextToken, .copy 0, .ask 1 .rest, .ask 0 .rest]
    let source := (Pool.solo Scan.serve (Scan.ofText "'\n' a") [.nextToken]).2
    (Pool.lineages 1 (steps.take 2))[1]? = some ⟨0, [.nextToken]⟩ ∧
    (Pool.run Scan.serve [Scan.ofText "'\n' a"] steps).1[2]? = some (.answered (source.serve .rest).1) ∧
    source.log.messages = ["unterminated string"] ∧
    source.rest.result = [⟨.space, "\n", 1, 2⟩, ⟨.badString, "' a", 2, 1⟩] ∧ source.rest.printed = [] := by
  intro steps source
  have hlineage : (Pool.lineages 1 (steps.take 2))[1]? = some ⟨0, [.nextToken]⟩ := by decide
  obtain ⟨text, htext, -, -, hask, -⟩ := (scans_independent ["'\n' a"] steps 2).2 1 _ hlineage
  obtain rfl : "'\n' a" = text := by simpa using htext
  exact ⟨hlineage, (hask .rest rfl).1, by decide +kernel, by decide +kernel, by decide +kernel⟩

end CssLexer
