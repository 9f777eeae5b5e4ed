/-
  CssLexer.Pool — things with a state of their own that are asked one at a time and may be copied.

  The members are numbered from 0 in the order in which they joined. Asking one changes that one alone; a copy joins
  under the next free number with the state its source has at that moment.
-/

namespace CssLexer.Pool

inductive Step (ρ : Type) where
  | ask (member : Nat) (request : ρ)
  | copy (member : Nat)
  deriving DecidableEq, Repr

/-- What a step gives: the member's own answer, the number of the copy, or nothing where there is no such member. -/
inductive Answer (α : Type) where
  | answered (answer : α)
  | copied (member : Nat)
  | missing
  deriving DecidableEq, Repr

/-- One step on the members of a pool, `serve` being how a member answers. -/
def perform {σ ρ α : Type} (serve : σ → ρ → α × σ) (members : List σ) : Step ρ → Answer α × List σ
  | .ask i request =>
    match members[i]? with
    | none => (.missing, members)
    | some m => let (answer, m) := serve m request; (.answered answer, members.set i m)
  | .copy i =>
    match members[i]? with
    | none => (.missing, members)
    | some m => (.copied members.length, members ++ [m])

def run {σ ρ α : Type} (serve : σ → ρ → α × σ) (members : List σ) : List (Step ρ) → List (Answer α) × List σ
  | [] => ([], members)
  | s :: steps =>
    let (answer, members) := perform serve members s
    let (answers, members) := run serve members steps
    (answer :: answers, members)

end CssLexer.Pool
