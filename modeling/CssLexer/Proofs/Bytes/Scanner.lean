/-
  CssLexer.Proofs.Bytes.Scanner — a scan by byte offsets, and why it never misses.

  A scanner keeps the whole text and an offset, cuts the text there whenever it looks at what remains, and moves by the
  byte length of the lexeme it has found. Each of these cuts can miss. `Tracks` relates a scanner to the scan that
  reads the same text by characters; it is kept by every call, and what it says of the offset is all that the cuts of
  the next call need.

  Proved:
  - `Tracks.nextToken`: a call of a scanner that tracks a scan succeeds, gives the scan's token and warnings, and
    leaves a scanner that tracks the scan behind the call.
  - `Scanner.Reachable.tracks`, `Scan.Reachable.tracked`: every scanner that calls lead to tracks a scan that requests
    lead to, and every such scan is tracked by such a scanner.
  - `no_misstep`: productions and scanners together.
-/

import CssLexer.Proofs.Bytes.Agreement
import CssLexer.Proofs.Reading

namespace CssLexer

namespace Reader

/-- Moved by the bytes of the lexeme at its place, a reader moves by the characters of that lexeme. -/
theorem advance?_rule {r : Reader} (h : r.remaining ≠ []) :
    r.advance? (r.rule.2.extent r.remaining).bytes = some (r.take r.rule.2.length) := by
  rw [advance?, Lexeme.extent, Text.charsIn?_eq_some_iff.mpr ⟨rule_length_le h, rfl⟩, Option.map_some]

end Reader

namespace Production

/-- The first production of a table that finds a lexeme at the start of a text, and that lexeme, by bytes. -/
def firstExtent : List Production → Text → Except Misstep (Option (Production × Extent))
  | [], _ => .ok none
  | p :: table, s => do
    match ← p.extent? s with
    | some e => return some (p, e)
    | none => firstExtent table s

theorem firstExtent_eq (table : List Production) (s : Text) :
    firstExtent table s =
      .ok ((table.findSome? fun p => (p.lexeme? s).map (p, ·)).map fun c => (c.1, c.2.extent s)) := by
  induction table with
  | nil => rfl
  | cons p table ih =>
    rw [firstExtent, extent?_eq, ok_bind, List.findSome?_cons]
    cases p.lexeme? s with
    | none => exact ih
    | some l => rfl

end Production

/-! ## Scanners -/

structure Cursor where
  text : Text
  position : Position
  deriving DecidableEq, Repr

namespace Cursor

def remaining (c : Cursor) : Except Misstep Text := c.text.behind c.position.offset

def atEnd (c : Cursor) : Bool := c.text.byteLength ≤ c.position.offset

def advance (c : Cursor) (n : Nat) : Except Misstep (Text × Cursor) := do
  let (consumed, _) ← (← c.remaining).cut n
  return (consumed, { c with position := { c.position.after consumed with offset := c.position.offset + n } })

def rule (c : Cursor) : Except Misstep (Rule × Extent) := do
  let remaining ← c.remaining
  if c.position.offset = 0 ∧ remaining.head? = some '\uFEFF' then
    return (.byteOrderMark, ⟨.byteOrderMark, '\uFEFF'.utf8Size⟩)
  else match ← Production.firstExtent Production.all remaining with
    | some (p, e) => return (.production p, e)
    | none => return (.unexpected, ⟨.unexpected, (remaining.head?.map Char.utf8Size).getD remaining.byteLength⟩)

end Cursor

structure Scanner where
  cursor : Cursor
  phase : Phase
  log : WarningLog
  deriving DecidableEq, Repr

namespace Scanner

def ofText (s : Text) : Scanner := ⟨⟨s, .start⟩, .scanning, .empty "CSS"⟩

/-- Reads one token, the end token at the end of the text; with it come the warning lines printed meanwhile. -/
def nextToken (b : Scanner) : Except Misstep (Token × List Text × Scanner) :=
  let place := b.cursor.position
  if b.cursor.atEnd then .ok (⟨.endOfText, [], place.line, place.column⟩, [], { b with phase := .finished })
  else do
    let (_, found) ← b.cursor.rule
    let (value, cursor) ← b.cursor.advance found.bytes
    let token : Token := ⟨found.kind, value, place.line, place.column⟩
    let (printed, log) := Scan.report b.log token
    return (token, printed, ⟨cursor, if token.kind = .unexpected then .recovered else .scanning, log⟩)

/-- The scanners that calls lead to. -/
inductive Reachable : Scanner → Prop
  | start (s : Text) : Reachable (ofText s)
  | step {b next : Scanner} {t : Token} {printed : List Text} :
      Reachable b → b.nextToken = .ok (t, printed, next) → Reachable next

/-- A scanner stands where a scan does. -/
structure Tracks (b : Scanner) (s : Scan) : Prop where
  remaining : b.cursor.remaining = .ok s.reader.remaining
  position : b.cursor.position = s.reader.position
  phase : b.phase = s.phase
  log : b.log = s.log

theorem tracks_ofText (s : Text) : (ofText s).Tracks (Scan.ofText s) := ⟨Text.behind_zero s, rfl, rfl, rfl⟩

section Tracks

variable {b : Scanner} {s : Scan} (h : b.Tracks s)
include h

theorem Tracks.atEnd : b.cursor.atEnd = s.reader.atEnd := by
  obtain ⟨a, htext, hoffset⟩ := Text.behind_eq_ok_iff.mp h.remaining
  rw [Cursor.atEnd, htext, Text.byteLength_append, hoffset, Reader.atEnd]
  cases hr : s.reader.remaining with
  | nil => simp
  | cons c r =>
    have := c.utf8Size_pos
    simp
    omega

theorem Tracks.rule :
    b.cursor.rule = .ok (s.reader.rule.1, s.reader.rule.2.extent s.reader.remaining) := by
  rw [Cursor.rule, h.remaining, ok_bind, h.position, Reader.rule]
  by_cases hbom : s.reader.position.offset = 0 ∧ s.reader.remaining.head? = some '\uFEFF'
  · obtain ⟨r, hr⟩ := List.head?_eq_some_iff.mp hbom.2
    rw [if_pos hbom, if_pos hbom, Lexeme.extent, hr, Text.bytesIn_cons_one]
    rfl
  · rw [if_neg hbom, if_neg hbom, Production.firstExtent_eq, ok_bind]
    have hselect : Production.all.findSome? (fun p => (p.lexeme? s.reader.remaining).map (p, ·)) =
        Production.select? s.reader.remaining := rfl
    rw [hselect]
    cases Production.select? s.reader.remaining with
    | some found => rfl
    | none =>
      cases hr : s.reader.remaining with
      | nil => rfl
      | cons c r =>
        rw [Lexeme.extent, Text.bytesIn_cons_one]
        rfl

theorem Tracks.advance (n : Nat) :
    b.cursor.advance (s.reader.remaining.bytesIn n) =
      .ok ((s.reader.take n).1, ⟨b.cursor.text, (s.reader.take n).2.position⟩) ∧
    Cursor.remaining ⟨b.cursor.text, (s.reader.take n).2.position⟩ = .ok (s.reader.take n).2.remaining := by
  have hoffset : s.reader.position.offset + s.reader.remaining.bytesIn n =
      (s.reader.position.after (s.reader.remaining.take n)).offset := (Position.after_offset _ _).symm
  constructor
  · rw [Cursor.advance, h.remaining, ok_bind, Text.cut_bytesIn, ok_bind, h.position]
    dsimp only
    rw [hoffset]
    rfl
  · obtain ⟨a, htext, ha⟩ := Text.behind_eq_ok_iff.mp h.remaining
    refine Text.behind_eq_ok_iff.mpr ⟨a ++ s.reader.remaining.take n, ?_, ?_⟩
    · rw [htext, List.append_assoc, Reader.take, List.take_append_drop]
    · rw [Text.byteLength_append, ha, h.position]
      exact hoffset

/-- A call never misses, gives what the scan gives, and leaves the scanner where the scan then stands. -/
theorem Tracks.nextToken :
    ∃ next, b.nextToken = .ok (s.nextToken.result, s.nextToken.printed, next) ∧ next.Tracks s.nextToken.scan := by
  cases hend : s.reader.atEnd with
  | true =>
    have he : s.reader.entry? = none := by rw [Reader.entry?, if_pos hend]
    refine ⟨{ b with phase := .finished }, ?_, ?_⟩
    · rw [Scanner.nextToken, Scan.nextToken, he, h.atEnd, if_pos hend, h.position]
      rfl
    · rw [Scan.nextToken, he]
      exact ⟨h.remaining, h.position, rfl, h.log⟩
  | false =>
    obtain ⟨hadvance, hremaining⟩ := h.advance s.reader.rule.2.length
    have hnot : ¬ s.reader.atEnd = true := by rw [hend]; decide
    have he : s.reader.entry? = some (⟨s.reader.rule.1, s.reader.rule.2.kind, (s.reader.take s.reader.rule.2.length).1,
        s.reader.position.line, s.reader.position.column⟩, (s.reader.take s.reader.rule.2.length).2) := by
      rw [Reader.entry?, if_neg hnot]
    refine ⟨⟨⟨b.cursor.text, (s.reader.take s.reader.rule.2.length).2.position⟩, s.nextToken.scan.phase,
      s.nextToken.scan.log⟩, ?_, ?_⟩
    · rw [Scanner.nextToken, Scan.nextToken, he, h.atEnd, if_neg hnot, h.rule, ok_bind]
      dsimp only
      rw [Lexeme.extent, hadvance, ok_bind, h.position, h.log]
      rfl
    · rw [Scan.nextToken, he]
      exact ⟨hremaining, rfl, rfl, rfl⟩

end Tracks

end Scanner

/-! ## Reachable scanners and scans -/

namespace Scan

def Tracked (s : Scan) : Prop := ∃ b : Scanner, b.Reachable ∧ b.Tracks s

theorem Tracked.nextToken {s : Scan} (h : s.Tracked) : s.nextToken.scan.Tracked := by
  obtain ⟨b, hb, htracks⟩ := h
  obtain ⟨next, hnext, htracks'⟩ := htracks.nextToken
  exact ⟨next, .step hb hnext, htracks'⟩

/-- Every scan that requests lead to is tracked by a scanner that calls lead to. -/
theorem Reachable.tracked {s : Scan} (h : s.Reachable) : s.Tracked := by
  induction h with
  | start s => exact ⟨.ofText s, .start s, Scanner.tracks_ofText s⟩
  | serve request _ ih => exact serve_scan (fun _ => Tracked.nextToken) request ih

end Scan

theorem Scanner.Reachable.tracks {b : Scanner} (h : b.Reachable) : ∃ s : Scan, s.Reachable ∧ b.Tracks s := by
  induction h with
  | start s => exact ⟨Scan.ofText s, .start s, tracks_ofText s⟩
  | step _ hstep ih =>
    obtain ⟨s, hs, htracks⟩ := ih
    obtain ⟨next, hnext, htracks'⟩ := htracks.nextToken
    rw [hstep] at hnext
    cases hnext
    exact ⟨s.nextToken.scan, .serve .nextToken hs, htracks'⟩

/-- Nothing goes wrong with bare lengths. On every text, every production alone cuts its text only behind characters
and takes no larger count from a smaller one, finds what it finds by characters, and reports at least one byte, no more
than there are, ending behind a character. A scanner that any calls have led to stands where a scan does, and its next
call succeeds and gives what the scan's gives; wherever requests lead a scan, such a scanner stands, and moving the
scan's reader by the bytes of the lexeme there is moving it by its characters. -/
theorem no_misstep :
    (∀ (p : Production) (s : Text), p.extent? s = .ok ((p.lexeme? s).map (·.extent s)) ∧
      ∀ e, p.extent? s = .ok (some e) →
        1 ≤ e.bytes ∧ e.bytes ≤ s.byteLength ∧ ∃ k, k ≤ s.length ∧ s.charsIn? e.bytes = some k) ∧
    (∀ b : Scanner, b.Reachable → ∃ s : Scan, s.Reachable ∧ b.Tracks s ∧ ∃ next : Scanner,
      b.nextToken = .ok (s.nextToken.result, s.nextToken.printed, next) ∧ next.Tracks s.nextToken.scan) ∧
    (∀ s : Scan, s.Reachable → (∃ b : Scanner, b.Reachable ∧ b.Tracks s) ∧
      (s.reader.remaining ≠ [] → s.reader.advance? (s.reader.rule.2.extent s.reader.remaining).bytes =
        some (s.reader.take s.reader.rule.2.length))) := by
  refine ⟨?_, ?_, ?_⟩
  · intro p s
    refine ⟨p.extent?_eq s, ?_⟩
    intro e he
    rw [p.extent?_eq s, Except.ok.injEq, Option.map_eq_some_iff] at he
    obtain ⟨l, hl, rfl⟩ := he
    obtain ⟨hpos, hle, hchars⟩ := Production.extent_bounds hl
    exact ⟨hpos, hle, l.length, Production.lexeme?_length_le hl, hchars⟩
  · intro b hb
    obtain ⟨s, hs, htracks⟩ := hb.tracks
    exact ⟨s, hs, htracks, htracks.nextToken⟩
  · intro s hs
    exact ⟨hs.tracked, Reader.advance?_rule⟩

end CssLexer
