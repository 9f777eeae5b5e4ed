/-
  CssLexer.Token — classified, placed pieces of a text, and the faults they report.

  A token's value is the text it was read from, delimiters and escapes included: a string keeps its quotes and a url
  its parentheses.
-/

import CssLexer.Kind
import CssLexer.Text.Printable

namespace CssLexer

structure Token where
  kind : Kind
  value : Text
  /-- Line of the first character, from 1. -/
  line : Nat
  /-- Column of the first character in characters, from 1. -/
  column : Nat
  deriving DecidableEq, Repr

/-- A malformed token, seen as the reason to refuse a text. -/
structure Fault where
  malformation : Malformation
  value : Text
  line : Nat
  column : Nat
  deriving DecidableEq, Repr

def Malformation.description : Malformation → Text
  | unterminatedString => "unterminated string"
  | malformedUrl => "malformed url"
  | unexpectedCharacter => "unexpected character"

def Fault.message (f : Fault) : Text :=
  f.malformation.description ++ " " ++ quoted f.value ++ " at line " ++ decimal f.line ++ ", column " ++
    decimal f.column

namespace Token

def isEnd (t : Token) : Bool := t.kind == .endOfText

def isMalformed (t : Token) : Bool := t.kind.isMalformed

def display (t : Token) : Text :=
  t.kind.label ++ " (line: " ++ decimal t.line ++ ", column: " ++ decimal t.column ++ "): " ++ quoted t.value

def fault? (t : Token) : Option Fault := t.kind.malformation?.map (⟨·, t.value, t.line, t.column⟩)

/-- The warning that a malformed token gives rise to; it names the character where no production accepts one. -/
def warning? (t : Token) : Option Text :=
  t.kind.malformation?.map fun
    | .unterminatedString => "unterminated string"
    | .malformedUrl => "malformed url(...)"
    | .unexpectedCharacter => "unexpected character " ++ codePoint (t.value.headD '\x00')

end Token

end CssLexer
