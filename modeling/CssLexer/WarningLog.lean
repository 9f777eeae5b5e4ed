/-
  CssLexer.WarningLog — warnings that are given once.

  A log belongs to one component and remembers the messages it has given; a message given before is silent. A copy of
  a log remembers what was given before the copying and nothing that is given later on the other side.
-/

import CssLexer.Text

namespace CssLexer

structure WarningLog where
  /-- Named in every line. -/
  component : Text
  /-- The messages given so far, each once, in order. -/
  messages : List Text
  deriving DecidableEq, Repr

namespace WarningLog

def empty (component : Text) : WarningLog := ⟨component, []⟩

def contains (log : WarningLog) (message : Text) : Bool := log.messages.contains message

def size (log : WarningLog) : Nat := log.messages.length

def isEmpty (log : WarningLog) : Bool := log.messages.isEmpty

def line (log : WarningLog) (message : Text) : Text := "[lemur " ++ log.component ++ "] ⚠ " ++ message

/-- Gives a message, if it is new: the lines to print, and the log afterwards. -/
def warnOnce (log : WarningLog) (message : Text) : List Text × WarningLog :=
  if log.contains message then ([], log)
  else ([log.line message], { log with messages := log.messages ++ [message] })

inductive Request where
  | warnOnce (message : Text)
  | contains (message : Text)
  deriving DecidableEq, Repr

/-- What a log answers: whether it contains the message that was asked for, and the lines printed. -/
structure Answer where
  contained : Option Bool
  printed : List Text
  deriving DecidableEq, Repr

def serve (log : WarningLog) : Request → Answer × WarningLog
  | .warnOnce message => let (printed, log) := log.warnOnce message; (⟨none, printed⟩, log)
  | .contains message => (⟨some (log.contains message), []⟩, log)

end WarningLog

end CssLexer
