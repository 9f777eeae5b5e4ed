/-
  CssLexer.Proofs.Lineage — where the members of a pool come from, and what they would have become alone.

  A member stood in the pool from the start, or is a copy. Its lineage goes back to a member of the start and lists the
  requests made on the way: those made of its source before the copying, and of the source's own source before that,
  and then its own. `solo` asks one thing alone, with no pool around it.

  Proved:
  - `run_follows`: after any steps every member is what the member of the start that it goes back to becomes when it
    is asked the requests of its lineage, alone and in order.
  - `run_answer`, `run_next`: each step of a run is a step on the members as they then are.
  - `run_member`: through the rest of a run a member answers, and becomes, what it would alone on its own requests.
-/

import CssLexer.Pool
import Mathlib.Data.List.Basic

namespace CssLexer.Pool

variable {σ ρ α : Type} (serve : σ → ρ → α × σ)

/-! ## Alone -/

/-- What one thing answers to requests in a row, and the thing afterwards. -/
def solo (m : σ) : List ρ → List α × σ
  | [] => ([], m)
  | q :: requests =>
    let (answer, m) := serve m q
    let (answers, m) := solo m requests
    (answer :: answers, m)

@[simp] theorem solo_nil (m : σ) : solo serve m [] = ([], m) := rfl

@[simp] theorem solo_cons (m : σ) (q : ρ) (requests : List ρ) :
    solo serve m (q :: requests) =
      ((serve m q).1 :: (solo serve (serve m q).2 requests).1, (solo serve (serve m q).2 requests).2) := rfl

theorem solo_append (m : σ) (requests more : List ρ) :
    solo serve m (requests ++ more) =
      ((solo serve m requests).1 ++ (solo serve (solo serve m requests).2 more).1,
        (solo serve (solo serve m requests).2 more).2) := by
  induction requests generalizing m with
  | nil => rfl
  | cons q requests ih => rw [List.cons_append, solo_cons, ih, solo_cons, List.cons_append]

theorem solo_induction {P : σ → Prop} (hP : ∀ m q, P m → P (serve m q).2) {m : σ} (h : P m) (requests : List ρ) :
    P (solo serve m requests).2 := by
  induction requests generalizing m with
  | nil => exact h
  | cons q requests ih => exact ih (hP m q h)

/-! ## One step -/

theorem perform_ask_of_none {members : List σ} {i : Nat} (q : ρ) (h : members[i]? = none) :
    perform serve members (.ask i q) = (.missing, members) := by
  rw [perform, h]

theorem perform_ask_of_some {members : List σ} {i : Nat} {m : σ} (q : ρ) (h : members[i]? = some m) :
    perform serve members (.ask i q) = (.answered (serve m q).1, members.set i (serve m q).2) := by
  rw [perform, h]

theorem perform_copy_of_none {members : List σ} {i : Nat} (h : members[i]? = none) :
    perform serve members (.copy i) = (.missing, members) := by
  rw [perform, h]

theorem perform_copy_of_some {members : List σ} {i : Nat} {m : σ} (h : members[i]? = some m) :
    perform serve members (.copy i) = (.copied members.length, members ++ [m]) := by
  rw [perform, h]

/-! ## Lineages -/

/-- Where a member comes from. -/
structure Lineage (ρ : Type) where
  /-- The member of the start that it goes back to. -/
  origin : Nat
  /-- The requests made of what it was copied from, up to each copying, and then of itself. -/
  requests : List ρ
  deriving DecidableEq, Repr

/-- The lineages after one more step. A request belongs to the lineage of the member asked; a copy has at first the
lineage of its source. -/
def extend (lineages : List (Lineage ρ)) : Step ρ → List (Lineage ρ)
  | .ask i q => lineages.modify i fun l => { l with requests := l.requests ++ [q] }
  | .copy i => lineages ++ lineages[i]?.toList

def lineages (n : Nat) (steps : List (Step ρ)) : List (Lineage ρ) :=
  steps.foldl extend ((List.range n).map (⟨·, []⟩))

/-- The members that lineages from `start` lead to. -/
structure Follows (start members : List σ) (lineages : List (Lineage ρ)) : Prop where
  length : members.length = lineages.length
  member : ∀ (i : Nat) (l : Lineage ρ), lineages[i]? = some l →
    ∃ m, start[l.origin]? = some m ∧ members[i]? = some (solo serve m l.requests).2

variable {serve} {start members : List σ} {ls : List (Lineage ρ)}

theorem Follows.getElem?_eq_none_iff (h : Follows serve start members ls) (i : Nat) :
    members[i]? = none ↔ ls[i]? = none := by
  rw [List.getElem?_eq_none_iff, List.getElem?_eq_none_iff, h.length]

theorem follows_start (start : List σ) : Follows serve start start ((List.range start.length).map (⟨·, []⟩)) := by
  refine ⟨by simp, ?_⟩
  intro i l hl
  rw [List.getElem?_map, Option.map_eq_some_iff] at hl
  obtain ⟨j, hj, rfl⟩ := hl
  obtain ⟨hi, rfl⟩ := List.getElem?_eq_some_iff.mp hj
  rw [List.length_range] at hi
  simp only [List.getElem_range]
  exact ⟨start[i], List.getElem?_eq_getElem hi, List.getElem?_eq_getElem hi⟩

theorem Follows.perform (h : Follows serve start members ls) (step : Step ρ) :
    Follows serve start (perform serve members step).2 (extend ls step) := by
  cases step with
  | ask i q =>
    rw [extend]
    cases hi : members[i]? with
    | none =>
      -- nobody is asked, and there is no lineage to add to
      have hnone := (h.getElem?_eq_none_iff i).mp hi
      rw [List.getElem?_eq_none_iff] at hnone
      rw [perform_ask_of_none serve q hi, List.modify_eq_self hnone]
      exact h
    | some m =>
      rw [perform_ask_of_some serve q hi]
      refine ⟨by rw [List.length_set, List.length_modify, h.length], ?_⟩
      intro j l hl
      rw [List.getElem?_modify, Option.map_eq_map, Option.map_eq_some_iff] at hl
      obtain ⟨l', hl', rfl⟩ := hl
      obtain ⟨m', hm', hj⟩ := h.member j l' hl'
      by_cases hij : i = j
      · subst hij
        have hlt : i < members.length := (List.getElem?_eq_some_iff.mp hi).1
        rw [hi, Option.some_inj] at hj
        rw [if_pos rfl, List.getElem?_set, if_pos rfl, if_pos hlt]
        refine ⟨m', hm', ?_⟩
        rw [solo_append, ← hj]
        rfl
      · rw [if_neg hij, List.getElem?_set, if_neg hij]
        exact ⟨m', hm', hj⟩
  | copy i =>
    rw [extend]
    cases hi : members[i]? with
    | none =>
      rw [perform_copy_of_none serve hi, (h.getElem?_eq_none_iff i).mp hi, Option.toList_none, List.append_nil]
      exact h
    | some m =>
      obtain ⟨source, hsource⟩ : ∃ source, ls[i]? = some source := by
        rw [← Option.isSome_iff_exists, ← Option.ne_none_iff_isSome, Ne, ← h.getElem?_eq_none_iff, hi]
        simp
      rw [perform_copy_of_some serve hi, hsource, Option.toList_some]
      refine ⟨by rw [List.length_append, List.length_append, h.length, List.length_singleton, List.length_singleton], ?_⟩
      intro j l hl
      by_cases hj : j < ls.length
      · rw [List.getElem?_append_left hj] at hl
        rw [List.getElem?_append_left (h.length ▸ hj)]
        exact h.member j l hl
      · -- the copy goes the way of its source
        have hlast : j = ls.length := by
          have := (List.getElem?_eq_some_iff.mp hl).1
          simp only [List.length_append, List.length_singleton] at this
          omega
        subst hlast
        rw [List.getElem?_concat_length, Option.some_inj] at hl
        rw [← h.length, List.getElem?_concat_length, ← hi, ← hl]
        exact h.member i source hsource

theorem Follows.run (h : Follows serve start members ls) (steps : List (Step ρ)) :
    Follows serve start (run serve members steps).2 (steps.foldl extend ls) := by
  induction steps generalizing members ls with
  | nil => exact h
  | cons step steps ih => exact ih (h.perform step)

/-- After any steps every member is what its lineage makes of the member of the start that it goes back to. -/
theorem run_follows (serve : σ → ρ → α × σ) (start : List σ) (steps : List (Step ρ)) :
    Follows serve start (run serve start steps).2 (lineages start.length steps) :=
  (follows_start start).run steps

/-! ## Steps of a run -/

theorem run_append (serve : σ → ρ → α × σ) (members : List σ) (steps more : List (Step ρ)) :
    run serve members (steps ++ more) =
      ((run serve members steps).1 ++ (run serve (run serve members steps).2 more).1,
        (run serve (run serve members steps).2 more).2) := by
  induction steps generalizing members with
  | nil => rfl
  | cons first steps ih => simp only [List.cons_append, run, ih]

theorem run_concat (serve : σ → ρ → α × σ) (members : List σ) (steps : List (Step ρ)) (step : Step ρ) :
    run serve members (steps ++ [step]) =
      ((run serve members steps).1 ++ [(perform serve (run serve members steps).2 step).1],
        (perform serve (run serve members steps).2 step).2) :=
  run_append serve members steps [step]

theorem run_next (serve : σ → ρ → α × σ) (members : List σ) {steps : List (Step ρ)} {k : Nat} {step : Step ρ}
    (h : steps[k]? = some step) :
    (run serve members (steps.take (k + 1))).2 = (perform serve (run serve members (steps.take k)).2 step).2 := by
  rw [List.take_add_one, h, Option.toList_some, run_concat]

theorem run_answer (serve : σ → ρ → α × σ) (members : List σ) {steps : List (Step ρ)} {k : Nat} {step : Step ρ}
    (h : steps[k]? = some step) :
    (run serve members steps).1[k]? = some (perform serve (run serve members (steps.take k)).2 step).1 := by
  induction steps generalizing members k with
  | nil => cases h
  | cons first steps ih =>
    cases k with
    | zero =>
      obtain rfl : first = step := by simpa using h
      rfl
    | succ k => exact ih (perform serve members first).2 h

@[simp] theorem length_run (serve : σ → ρ → α × σ) (members : List σ) (steps : List (Step ρ)) :
    (run serve members steps).1.length = steps.length := by
  induction steps generalizing members with
  | nil => rfl
  | cons first steps ih => exact congrArg (· + 1) (ih (perform serve members first).2)

theorem drop_run (serve : σ → ρ → α × σ) (members : List σ) {steps : List (Step ρ)} {k : Nat} (h : k ≤ steps.length) :
    (run serve members steps).1.drop k = (run serve (run serve members (steps.take k)).2 (steps.drop k)).1 := by
  have hrun := congrArg Prod.fst (run_append serve members (steps.take k) (steps.drop k))
  rw [List.take_append_drop] at hrun
  have hlength : (run serve members (steps.take k)).1.length = k := by rw [length_run, List.length_take_of_le h]
  rw [hrun, List.drop_left' hlength]

/-! ## One member of a run -/

def Step.request? (i : Nat) : Step ρ → Option ρ
  | .ask j q => if j = i then some q else none
  | .copy _ => none

theorem Step.request?_eq_some_iff {i : Nat} {step : Step ρ} {q : ρ} : step.request? i = some q ↔ step = .ask i q := by
  cases step with
  | ask j q' =>
    rw [request?, Option.ite_none_right_eq_some, Option.some_inj, Step.ask.injEq]
  | copy j => simp [request?]

/-- The requests that steps make of member `i`. -/
def asked (i : Nat) (steps : List (Step ρ)) : List ρ := steps.filterMap (Step.request? i)

/-- What a step that gives `answer` has member `i` answer. -/
def Step.answer? (i : Nat) (step : Step ρ) (answer : Answer α) : Option α :=
  match step.request? i, answer with
  | some _, .answered a => some a
  | _, _ => none

/-- What member `i` answers in steps that give `answers`. -/
def answersOf (i : Nat) (steps : List (Step ρ)) (answers : List (Answer α)) : List α :=
  (steps.zip answers).filterMap fun (step, answer) => step.answer? i answer

theorem answersOf_cons (i : Nat) (step : Step ρ) (steps : List (Step ρ)) (answer : Answer α)
    (answers : List (Answer α)) :
    answersOf i (step :: steps) (answer :: answers) =
      (step.answer? i answer).toList ++ answersOf i steps answers := by
  rw [answersOf, List.zip_cons_cons, List.filterMap_cons]
  cases h : step.answer? i answer with
  | none =>
    simp only [h]
    rfl
  | some a =>
    simp only [h]
    rfl

theorem perform_of_request?_eq_none (serve : σ → ρ → α × σ) {i : Nat} {m : σ} {step : Step ρ}
    (hi : members[i]? = some m) (h : step.request? i = none) : (perform serve members step).2[i]? = some m := by
  cases step with
  | ask j q =>
    have hj : j ≠ i := by simpa [Step.request?] using h
    cases hm : members[j]? with
    | none => rwa [perform_ask_of_none serve q hm]
    | some other => rwa [perform_ask_of_some serve q hm, List.getElem?_set_ne hj]
  | copy j =>
    cases hm : members[j]? with
    | none => rwa [perform_copy_of_none serve hm]
    | some other =>
      rwa [perform_copy_of_some serve hm, List.getElem?_append_left (List.getElem?_eq_some_iff.mp hi).1]

theorem run_of_not_asked (serve : σ → ρ → α × σ) (members : List σ) {steps : List (Step ρ)} {k i : Nat} {m : σ}
    (hi : (run serve members (steps.take k)).2[i]? = some m) (h : ∀ q, steps[k]? ≠ some (.ask i q)) :
    (run serve members (steps.take (k + 1))).2[i]? = some m := by
  cases hstep : steps[k]? with
  | none => rwa [List.take_add_one, hstep, Option.toList_none, List.append_nil]
  | some step =>
    have hother : step.request? i = none := by
      rw [Option.eq_none_iff_forall_ne_some]
      intro q hq
      exact h q (hstep.trans (congrArg some (Step.request?_eq_some_iff.mp hq)))
    rw [run_next serve members hstep]
    exact perform_of_request?_eq_none serve hi hother

/-- Whatever else is asked and copied meanwhile, a member answers its own requests, and becomes, what it would
alone. -/
theorem run_member (serve : σ → ρ → α × σ) {i : Nat} {m : σ} (hi : members[i]? = some m) (steps : List (Step ρ)) :
    answersOf i steps (run serve members steps).1 = (solo serve m (asked i steps)).1 ∧
    (run serve members steps).2[i]? = some (solo serve m (asked i steps)).2 := by
  induction steps generalizing members m with
  | nil => exact ⟨rfl, hi⟩
  | cons step steps ih =>
    cases hstep : step.request? i with
    | none =>
      have hasked : asked i (step :: steps) = asked i steps := List.filterMap_cons_none hstep
      have hanswer : step.answer? i (perform serve members step).1 = none := by simp only [Step.answer?, hstep]
      obtain ⟨hanswers, hmember⟩ := ih (perform_of_request?_eq_none serve hi hstep)
      rw [hasked, ← hanswers, run, answersOf_cons, hanswer]
      exact ⟨rfl, hmember⟩
    | some q =>
      have hasked : asked i (step :: steps) = q :: asked i steps := List.filterMap_cons_some hstep
      have hperform : perform serve members step = (.answered (serve m q).1, members.set i (serve m q).2) := by
        rw [Step.request?_eq_some_iff.mp hstep]
        exact perform_ask_of_some serve q hi
      have hanswer : step.answer? i (perform serve members step).1 = some (serve m q).1 := by
        simp only [Step.answer?, hstep, hperform]
      have hnext : (perform serve members step).2[i]? = some (serve m q).2 := by
        rw [hperform]
        exact List.getElem?_set_self (List.getElem?_eq_some_iff.mp hi).1
      obtain ⟨hanswers, hmember⟩ := ih hnext
      rw [hasked, solo_cons, ← hanswers, run, answersOf_cons, hanswer]
      exact ⟨rfl, hmember⟩

end CssLexer.Pool
