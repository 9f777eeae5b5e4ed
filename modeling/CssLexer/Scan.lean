/-
  CssLexer.Scan — a scan in progress: where it is, how its last step went, and which warnings it has given.

  A scan reads the tokens of `tokenize` one at a time. A malformed token gives a warning, each warning once in a scan,
  and the scan goes on behind it; at the end every further step yields the same end token. A scan is a value: a copy
  goes on by itself.

  Proved: a step that does not end the scan shortens what remains (`nextToken_remaining_lt`).
-/

import CssLexer.Entry
import CssLexer.WarningLog

namespace CssLexer

/-- How the last step of a scan went. -/
inductive Phase where
  /-- Nothing read yet, or a production matched. -/
  | scanning
  /-- No production accepted the character, which was passed over. -/
  | recovered
  /-- The text was at its end. -/
  | finished
  deriving DecidableEq, Repr

structure Scan where
  reader : Reader
  phase : Phase
  log : WarningLog
  deriving DecidableEq, Repr

/-- What reading from a scan gives: a result, the warning lines printed meanwhile, and the scan as it then stands. -/
structure Outcome (α : Type) where
  result : α
  printed : List Text
  scan : Scan

def Outcome.map {α β : Type} (f : α → β) (o : Outcome α) : Outcome β := ⟨f o.result, o.printed, o.scan⟩

namespace Scan

def ofText (s : Text) : Scan := ⟨.ofText s, .scanning, .empty "CSS"⟩

def position (s : Scan) : Position := s.reader.position

def report (log : WarningLog) (t : Token) : List Text × WarningLog :=
  match t.warning? with
  | none => ([], log)
  | some message => log.warnOnce message

/-- Reads one token, the end token at the end of the text. -/
def nextToken (s : Scan) : Outcome Token :=
  match s.reader.entry? with
  | none => ⟨s.reader.endToken, [], { s with phase := .finished }⟩
  | some (e, next) =>
    let (printed, log) := report s.log e.token
    ⟨e.token, printed, next, if e.token.kind = .unexpected then .recovered else .scanning, log⟩

theorem nextToken_remaining_lt {s : Scan} (h : s.nextToken.result.isEnd = false) :
    s.nextToken.scan.reader.remaining.length < s.reader.remaining.length := by
  unfold nextToken at h ⊢
  split
  · rename_i hnone
    rw [hnone] at h
    simp [Token.isEnd, Reader.endToken] at h
  · exact Reader.entry?_remaining_lt ‹_›

/-- Reads one token; none is left at the end of the text. -/
def next (s : Scan) : Outcome (Option Token) :=
  s.nextToken.map fun t => if t.isEnd then none else some t

/-- Reads on behind the tokens in `before`, the last of which comes first, and the lines already printed. -/
def readUntilBehind (stop : Token → Bool) (before : List Token) (printed : List Text) (s : Scan) :
    Outcome (List Token × Option Token) :=
  let step := s.nextToken
  if _h : step.result.isEnd then ⟨(before.reverse, none), printed ++ step.printed, step.scan⟩
  else if stop step.result then ⟨(before.reverse, some step.result), printed ++ step.printed, step.scan⟩
  else readUntilBehind stop (step.result :: before) (printed ++ step.printed) step.scan
termination_by s.reader.remaining.length
decreasing_by exact nextToken_remaining_lt (by simpa using _h)

/-- Reads to the end of the text, or through the first token that `stop` holds of; that token comes apart from those
before it. -/
def readUntil (stop : Token → Bool) (s : Scan) : Outcome (List Token × Option Token) :=
  readUntilBehind stop [] [] s

def rest (s : Scan) : Outcome (List Token) := (s.readUntil fun _ => false).map Prod.fst

/-- Reads to the end of the text, or through the first malformed token, whose fault is then the result. -/
def strict (s : Scan) : Outcome (Except Fault (List Token)) :=
  (s.readUntil Token.isMalformed).map fun (tokens, stopped) =>
    match stopped.bind Token.fault? with
    | none => .ok tokens
    | some fault => .error fault

inductive Request where
  | nextToken
  | next
  | rest
  | strict
  deriving DecidableEq, Repr

inductive Reading where
  | token (t : Token)
  | item (t : Option Token)
  | tokens (ts : List Token)
  | verdict (v : Except Fault (List Token))

structure Answer where
  reading : Reading
  printed : List Text

def read (s : Scan) : Request → Outcome Reading
  | .nextToken => s.nextToken.map .token
  | .next => s.next.map .item
  | .rest => s.rest.map .tokens
  | .strict => s.strict.map .verdict

def serve (s : Scan) (request : Request) : Answer × Scan :=
  let o := s.read request
  (⟨o.result, o.printed⟩, o.scan)

end Scan

def tokenizeStrict (s : Text) : Except Fault (List Token) := (Scan.ofText s).strict.result

end CssLexer
