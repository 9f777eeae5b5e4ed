/-
  CssLexer.Proofs.Bytes.Calls — a cursor moved by any counts of bytes, some of which miss.

  The cursor is changed in place: a call looks at what remains, cuts it, moves line and column over what was cut off,
  one character after another, and then the offset. What a call has changed before it misses stays changed, so that a
  miss leaves no trace is a matter of the order of these steps. The offset is a machine word, which can wrap; the counts
  are arbitrary.

  Proved:
  - `boundary_iff`: the bytes alone tell where a text can be cut.
  - `call_cases`: all that one call does to a cursor behind `p`.
  - `solo_call`: any calls in a row lead behind what they have received, however it was cut.
  - `calls_atomic`: both together, and the reader by characters beside them.
-/

import CssLexer.Proofs.Bytes.Scanner
import CssLexer.Proofs.Lineage
import CssLexer.Proofs.Restart
import Mathlib.Algebra.Group.Nat.Defs

namespace CssLexer

/-! ## Boundaries -/

namespace Text

/-- A place in the bytes of a text where a character starts, or behind the last of them. -/
def Boundary (s : Text) (i : Nat) : Prop := i = s.byteLength ∨ ∃ b, s.utf8[i]? = some b ∧ b.IsUTF8FirstByte

theorem boundary_append (p r : Text) (i : Nat) : Boundary (p ++ r) (p.byteLength + i) ↔ Boundary r i := by
  unfold Boundary
  rw [byteLength_append, Nat.add_left_cancel_iff, utf8_append, ← length_utf8 p,
    List.getElem?_append_right (Nat.le_add_right _ _), Nat.add_sub_cancel_left]

/-- Within the bytes of a character only the first is a boundary. -/
theorem boundary_cons_of_lt {c : Char} {i : Nat} (h : i < c.utf8Size) (r : Text) : Boundary (c :: r) i ↔ i = 0 := by
  have hi : i < (String.utf8EncodeChar c).length := by rwa [String.length_utf8EncodeChar]
  unfold Boundary
  rw [utf8_cons, List.getElem?_append_left hi, List.getElem?_eq_getElem hi, byteLength_cons]
  constructor
  · intro hb
    rcases hb with hend | ⟨b, hb, hfirst⟩
    · omega
    · rw [Option.some_inj] at hb
      subst hb
      exact UInt8.isUTF8FirstByte_getElem_utf8EncodeChar.mp hfirst
  · intro h0
    exact .inr ⟨_, rfl, UInt8.isUTF8FirstByte_getElem_utf8EncodeChar.mpr h0⟩

theorem boundary_iff {s : Text} {i : Nat} : Boundary s i ↔ ∃ a b, s = a ++ b ∧ a.byteLength = i := by
  constructor
  · intro h
    induction s generalizing i with
    | nil =>
      rcases h with rfl | ⟨b, hb, -⟩
      · exact ⟨[], [], rfl, rfl⟩
      · simp [utf8] at hb
    | cons c r ih =>
      by_cases hi : i < c.utf8Size
      · rw [boundary_cons_of_lt hi] at h
        exact ⟨[], c :: r, rfl, h.symm⟩
      · obtain ⟨j, rfl⟩ := Nat.exists_eq_add_of_le (Nat.le_of_not_lt hi)
        have hrest : Boundary r j := (boundary_append [c] r j).mp (by simpa using h)
        obtain ⟨a, b, rfl, rfl⟩ := ih hrest
        exact ⟨c :: a, b, rfl, by simp⟩
  · intro ⟨a, b, hs, ha⟩
    subst hs ha
    rw [← Nat.add_zero a.byteLength, boundary_append]
    cases b with
    | nil => exact .inl rfl
    | cons c r => exact (boundary_cons_of_lt c.utf8Size_pos r).mpr rfl

theorem cut_isOk_iff {s : Text} {n : Nat} : (∃ parts, s.cut n = .ok parts) ↔ n ≤ s.byteLength ∧ s.Boundary n := by
  rw [boundary_iff]
  constructor
  · intro ⟨⟨a, b⟩, h⟩
    obtain ⟨rfl, rfl⟩ := cut_eq_ok_iff.mp h
    exact ⟨by simp, a, b, rfl, rfl⟩
  · intro ⟨_, a, b, hs, ha⟩
    exact ⟨(a, b), cut_eq_ok_iff.mpr ⟨hs, ha⟩⟩

end Text

/-! ## Calls in place -/

namespace Cursor

/-- A step that changes a cursor in place. What it has changed before it misses stays changed. -/
abbrev InPlace (α : Type) := ExceptT Misstep (StateM Cursor) α

/-- Line and column moved over one character; the offset stays. -/
def pass (c : Cursor) (ch : Char) : Cursor :=
  let p := c.position
  { c with position := if ch = '\n' then ⟨p.line + 1, 1, p.offset⟩ else ⟨p.line, p.column + 1, p.offset⟩ }

/-- Reads `n` bytes in place, the offset being a machine word of `size` values. -/
def consume (size n : Nat) : InPlace Text := do
  let remaining ← MonadExcept.ofExcept (← get).remaining
  let (consumed, _) ← MonadExcept.ofExcept (remaining.cut n)
  consumed.forM fun ch => modify (pass · ch)
  modify fun c => { c with position := { c.position with offset := (c.position.offset + n) % size } }
  return consumed

/-- A call: what it answers, be it that it has missed, and the cursor that it leaves. -/
def call (size : Nat) (c : Cursor) (n : Nat) : Except Misstep Text × Cursor := (consume size n).run.run c

section Run

variable {α β : Type}

theorem run_bind (x : InPlace α) (f : α → InPlace β) (c : Cursor) :
    (x >>= f).run.run c = match x.run.run c with
      | (.ok a, c') => (f a).run.run c'
      | (.error e, c') => (.error e, c') := by
  show ((x.run >>= ExceptT.bindCont f).run c) = _
  rw [StateT.run_bind]
  obtain ⟨answer, c'⟩ := x.run.run c
  cases answer <;> rfl

theorem run_ofExcept (x : Except Misstep α) (c : Cursor) :
    (MonadExcept.ofExcept x : InPlace α).run.run c = (x, c) := by
  cases x <;> rfl

theorem run_forM_pass (t : Text) (c : Cursor) :
    (t.forM fun ch => modify (pass · ch) : InPlace Unit).run.run c = (.ok (), t.foldl pass c) := by
  induction t generalizing c with
  | nil => rfl
  | cons ch t ih => exact ih (c.pass ch)

end Run

theorem foldl_pass (t : Text) {c : Cursor} {q : Position} (hline : q.line = c.position.line)
    (hcolumn : q.column = c.position.column) :
    t.foldl pass c = { c with position := { q.after t with offset := c.position.offset } } := by
  induction t generalizing c q with
  | nil =>
    show c = ⟨c.text, q.line, q.column, c.position.offset⟩
    rw [hline, hcolumn]
  | cons ch t ih =>
    have hoffset : (c.pass ch).position.offset = c.position.offset := by
      unfold pass
      split <;> rfl
    rw [List.foldl_cons, ← hoffset]
    by_cases h : ch = '\n'
    · exact ih (q := q.step ch) (by simp [pass, Position.step, h, hline]) (by simp [pass, Position.step, h])
    · exact ih (q := q.step ch) (by simp [pass, Position.step, h, hline]) (by simp [pass, Position.step, h, hcolumn])

section

variable (size : Nat) {c : Cursor} {r : Text} {n : Nat} (hr : c.remaining = .ok r)
include hr

/-- A cut that misses comes before every change. -/
theorem call_of_missed {e : Misstep} (h : r.cut n = .error e) : c.call size n = (.error e, c) := by
  have hget : (get : InPlace Cursor).run.run c = (.ok c, c) := rfl
  simp only [call, consume, run_bind, hget, run_ofExcept, hr, h]

theorem call_of_cut {t r' : Text} (h : r.cut n = .ok (t, r')) :
    c.call size n = (.ok t, { c with position :=
      { c.position.after t with offset := (c.position.offset + n) % size } }) := by
  have hget : (get : InPlace Cursor).run.run c = (.ok c, c) := rfl
  simp only [call, consume, run_bind, hget, run_ofExcept, hr, h, run_forM_pass, foldl_pass t rfl rfl]
  rfl

end

end Cursor

def Reader.attempt (r : Reader) (n : Nat) : Option Text × Reader :=
  match r.advance? n with
  | some (t, next) => (some t, next)
  | none => (none, r)

/-! ## Calls in a row -/

namespace Cursor

/-- The cursor in the text `p ++ r` that stands behind `p`. -/
def between (p r : Text) : Cursor := ⟨p ++ r, .behind p⟩

@[simp] theorem between_remaining (p r : Text) : (between p r).remaining = .ok r := Text.behind_append p r

theorem between_atEnd_iff {p r : Text} : (between p r).atEnd = true ↔ r = [] := by
  have hlength := Text.length_le_byteLength r
  have hend : (between p r).atEnd = true ↔ (p ++ r).byteLength ≤ p.byteLength := decide_eq_true_iff
  rw [hend, Text.byteLength_append]
  constructor
  · intro h
    exact List.length_eq_zero_iff.mp (by omega)
  · intro h
    subst h
    exact Nat.le_refl _

variable {size : Nat}

/-- All that a call can do behind `p`. It misses, and nothing has changed; or it receives a beginning of what remains
with as many bytes as it was asked for, and then stands behind that too. A reader at the same place does the same. -/
theorem call_cases {p r : Text} (hsize : (p ++ r).byteLength < size) (n : Nat) :
    (∃ e, r.cut n = .error e ∧ (between p r).call size n = (.error e, between p r) ∧
      Reader.attempt ⟨r, .behind p⟩ n = (none, ⟨r, .behind p⟩)) ∨
    (∃ t r', r = t ++ r' ∧ t.byteLength = n ∧ (between p r).call size n = (.ok t, between (p ++ t) r') ∧
      Reader.attempt ⟨r, .behind p⟩ n = (some t, ⟨r', .behind (p ++ t)⟩)) := by
  cases hcut : r.cut n with
  | error e =>
    refine .inl ⟨e, rfl, call_of_missed size (between_remaining p r) hcut, ?_⟩
    have hnone : r.charsIn? n = none := by
      rw [Text.cut] at hcut
      split at hcut
      · cases hcut
      · assumption
    rw [Reader.attempt, Reader.advance?, hnone]
    rfl
  | ok parts =>
    obtain ⟨t, r'⟩ := parts
    obtain ⟨rfl, rfl⟩ := Text.cut_eq_ok_iff.mp hcut
    have hafter : (Position.behind p).after t = .behind (p ++ t) := Position.behind_after p t
    refine .inr ⟨t, r', rfl, rfl, ?_, ?_⟩
    · have hoffset : ((Position.behind p).offset + t.byteLength) % size = (Position.behind (p ++ t)).offset := by
        rw [Text.byteLength_append, Text.byteLength_append] at hsize
        show (p.byteLength + t.byteLength) % size = (p ++ t).byteLength
        rw [Text.byteLength_append]
        exact Nat.mod_eq_of_lt (by omega)
      rw [call_of_cut size (between_remaining p (t ++ r')) hcut, between, between, hafter, hoffset, List.append_assoc]
    · rw [Reader.attempt, Reader.advance?, Text.charsIn?_append, Option.map_some, Reader.take]
      simp only [List.take_left, List.drop_left, hafter]

def received (answers : List (Except Misstep Text)) : Text := answers.flatMap fun a => a.toOption.getD []

/-- Calls in a row lead behind what they have received, and a reader does the same on them. -/
theorem solo_call {p r : Text} (hsize : (p ++ r).byteLength < size) (calls : List Nat) :
    ∃ answers r', r = received answers ++ r' ∧
      Pool.solo (call size) (between p r) calls = (answers, between (p ++ received answers) r') ∧
      Pool.solo Reader.attempt ⟨r, .behind p⟩ calls =
        (answers.map Except.toOption, ⟨r', .behind (p ++ received answers)⟩) := by
  induction calls generalizing p r with
  | nil => exact ⟨[], r, rfl, by simp [received], by simp [received]⟩
  | cons n calls ih =>
    rcases call_cases hsize n with ⟨e, -, hcall, hattempt⟩ | ⟨t, r₁, rfl, -, hcall, hattempt⟩
    · obtain ⟨answers, r', hr, hsolo, hreader⟩ := ih hsize
      refine ⟨.error e :: answers, r', hr, ?_, ?_⟩
      · rw [Pool.solo_cons, hcall, hsolo]
        rfl
      · rw [Pool.solo_cons, hattempt, hreader]
        rfl
    · obtain ⟨answers, r', hr, hsolo, hreader⟩ := ih (p := p ++ t) (r := r₁) (by rwa [List.append_assoc])
      have hreceived : p ++ received (.ok t :: answers) = p ++ t ++ received answers := (List.append_assoc ..).symm
      refine ⟨.ok t :: answers, r', ?_, ?_, ?_⟩
      · rw [hr, ← List.append_assoc]
        rfl
      · rw [Pool.solo_cons, hcall, hsolo, hreceived]
      · rw [Pool.solo_cons, hattempt, hreader, hreceived]
        rfl

/-- Whatever counts a cursor on `s` has been called with, it stands behind the text `p` that the calls have received,
and where that is depends on `p` alone: one line more than it has line feeds, one column more than it has characters
behind the last of them, as many bytes as it has. The next call succeeds exactly if what remains has as many bytes and
they end at a boundary; then it gives just these bytes and leaves what is behind them. Otherwise it leaves the cursor
as it is. A reader of `s` answers every call in the same way and stands at the same place. The offset is a machine word,
all that is asked of which is that it can count the bytes of `s`. -/
theorem calls_atomic {size : Nat} {s : Text} (hsize : s.byteLength < size) (calls : List Nat) (n : Nat) :
    let done := Pool.solo (call size) ⟨s, .start⟩ calls
    let c := done.2
    let p := received done.1
    let next := c.call size n
    c.text = s ∧
    c.position = ⟨1 + p.count '\n', 1 + (p.rtakeWhile (· != '\n')).length, p.byteLength⟩ ∧
    ∃ r, s = p ++ r ∧ c.remaining = .ok r ∧ (c.atEnd = true ↔ r = []) ∧
      ((∃ t, next.1 = .ok t) ↔ n ≤ r.byteLength ∧ s.Boundary (c.position.offset + n)) ∧
      (∀ t, next.1 = .ok t → t.utf8 = r.utf8.take n ∧ ∃ r', r = t ++ r' ∧ next.2.remaining = .ok r') ∧
      (∀ e, next.1 = .error e → next.2 = c) ∧
      Pool.solo Reader.attempt (.ofText s) calls = (done.1.map Except.toOption, ⟨r, c.position⟩) := by
  intro done c p next
  obtain ⟨answers, r, hs, hsolo, hreader⟩ := solo_call (p := []) hsize calls
  have hdone : done = (answers, between (received answers) r) := hsolo
  have hp : p = received answers := congrArg (fun d => received d.1) hdone
  have hc : c = between p r := by rw [hp]; exact congrArg Prod.snd hdone
  have hs : s = p ++ r := by rw [hp]; exact hs
  have hnext : next = (between p r).call size n := congrArg (fun c : Cursor => c.call size n) hc
  have hoffset : c.position.offset = p.byteLength := by rw [hc]; rfl
  have hsolo : Pool.solo Reader.attempt (.ofText s) calls = (done.1.map Except.toOption, ⟨r, c.position⟩) := by
    rw [hdone, hc, hp]
    exact hreader
  have hcut : (∃ parts, r.cut n = .ok parts) ↔ n ≤ r.byteLength ∧ s.Boundary (c.position.offset + n) := by
    rw [Text.cut_isOk_iff, hoffset, hs, Text.boundary_append]
  refine ⟨by rw [hc, hs]; rfl, by rw [hc]; rfl, r, hs, by rw [hc, between_remaining], by rw [hc, between_atEnd_iff], ?_⟩
  rw [← hcut, hnext]
  rcases call_cases (hs ▸ hsize) n with ⟨e, hmissed, hcall, -⟩ | ⟨t, r', hr, hn, hcall, -⟩
  · rw [hcall, hmissed]
    refine ⟨by simp, ?_, fun _ _ => hc.symm, hsolo⟩
    intro t ht
    cases ht
  · rw [hcall]
    refine ⟨iff_of_true ⟨t, rfl⟩ ⟨(t, r'), Text.cut_eq_ok_iff.mpr ⟨hr, hn⟩⟩, ?_, ?_, hsolo⟩
    · intro u hu
      cases hu
      refine ⟨?_, r', hr, between_remaining _ _⟩
      rw [hr, Text.utf8_append, ← hn, ← Text.length_utf8, List.take_left]
    · intro e he
      cases he

/-- A letter of two bytes and a line break of two characters, cut between these, with two calls that miss: the first
ends inside the letter, and the second asks for as much as a word can count. -/
theorem calls_atomic_crlf :
    let s : Text := ['é', '\r', '\n', 'x']
    let calls := [1, 2 ^ 64 - 1, 3, 1]
    let c := (Pool.solo (call (2 ^ 64)) ⟨s, .start⟩ calls).2
    s.byteLength < 2 ^ 64 ∧ c.position = ⟨2, 1, 4⟩ ∧ c.remaining = .ok ['x'] ∧
    (c.call (2 ^ 64) (2 ^ 64 - 1)).2 = c ∧
    (Pool.solo Reader.attempt (.ofText s) calls).1 = [none, none, some ['é', '\r'], some ['\n']] := by
  intro s calls c
  have hsize : s.byteLength < 2 ^ 64 := by decide
  have hdone : Pool.solo (call (2 ^ 64)) ⟨s, .start⟩ calls =
      ([.error .insideCharacter, .error .pastEnd, .ok ['é', '\r'], .ok ['\n']], ⟨s, ⟨2, 1, 4⟩⟩) := by rfl
  have hmissed : (c.call (2 ^ 64) (2 ^ 64 - 1)).1 = .error .pastEnd := by rfl
  obtain ⟨-, -, r, hs, hremaining, -, -, -, hstays, hreader⟩ := calls_atomic hsize calls (2 ^ 64 - 1)
  have hr : r = ['x'] := by
    rw [hdone] at hs
    have hs : ['é', '\r', '\n'] ++ ['x'] = ['é', '\r', '\n'] ++ r := hs
    exact (List.append_cancel_left hs).symm
  refine ⟨hsize, congrArg (fun d => d.2.position) hdone, ?_, hstays _ hmissed, ?_⟩
  · rw [← hr]
    exact hremaining
  · rw [hreader, hdone]
    rfl

end Cursor

end CssLexer
