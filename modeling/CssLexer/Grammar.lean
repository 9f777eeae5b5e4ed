/-
  CssLexer.Grammar — the token grammar of CSS 2.1 as languages over characters.

  The languages are written from the grammar's own macros and know nothing of how the lexer proceeds: `escape`, `ident`,
  `name`, `num`, strings, urls, comments and ranges of code points. What a production finds is then the longest
  beginning of a text in a language (`IsLongest`).
-/

import CssLexer.Text
import Mathlib.Computability.Language

namespace CssLexer.Grammar

/-- The one-character texts of a class. -/
def one (p : Char → Bool) : Language Char := {s | ∃ c, p c = true ∧ s = [c]}

def exactly (s : Text) : Language Char := {s}

def optional (l : Language Char) : Language Char := 1 + l

def oneOrMore (l : Language Char) : Language Char := l * KStar.kstar l

/-- From `least` to `most` characters of a class. -/
def between (least most : Nat) (p : Char → Bool) : Language Char :=
  {s | least ≤ s.length ∧ s.length ≤ most ∧ ∀ c ∈ s, p c = true}

/-! ## Macros -/

def blanks : Language Char := KStar.kstar (one isWhitespace)

def newline : Language Char := exactly ['\r', '\n'] + one isNewline

def escape : Language Char :=
  exactly ['\\'] * between 1 6 isHexDigit * optional (exactly ['\r', '\n'] + one isWhitespace) +
    exactly ['\\'] * one fun c => !isNewline c && !isHexDigit c

def nameStart : Language Char := one isNameStart + escape

def nameChar : Language Char := one isNameChar + escape

def name : Language Char := oneOrMore nameChar

def ident : Language Char := optional (exactly ['-']) * nameStart * KStar.kstar nameChar

def digits : Language Char := oneOrMore (one isDigit)

def num : Language Char := digits + optional digits * exactly ['.'] * digits

/-- What may stand between the quotation marks `quote` of a string. -/
def stringBody (quote : Char) : Language Char :=
  KStar.kstar (one (fun c => !isNewline c && c != '\\' && c != quote) + exactly ['\\'] * newline + escape)

def string (quote : Char) : Language Char := exactly [quote] * stringBody quote * exactly [quote]

/-- The opening of a url in any mixture of cases. -/
def urlOpening : Language Char :=
  one (isLetterOf 'u') * one (isLetterOf 'r') * one (isLetterOf 'l') * exactly ['(']

def urlBody : Language Char := KStar.kstar (one isUrlChar + escape)

/-! ## Tokens -/

def uri : Language Char :=
  urlOpening * blanks * (string '"' + string '\'' + urlBody) * blanks * exactly [')']

/-- A closed comment: stars inside it are never directly before a slash. -/
def comment : Language Char :=
  exactly ['/', '*'] * KStar.kstar (one (· != '*')) * oneOrMore (one (· == '*')) *
    KStar.kstar (one (fun c => c != '/' && c != '*') * KStar.kstar (one (· != '*')) * oneOrMore (one (· == '*'))) *
      exactly ['/']

/-- Up to six places, taken by digits and then by question marks. -/
def places : Language Char :=
  {s | ∃ a b, s = a ++ b ∧ (∀ c ∈ a, isHexDigit c = true) ∧ (∀ c ∈ b, c = '?') ∧ 1 ≤ s.length ∧ s.length ≤ 6}

def unicodeRange : Language Char :=
  one (isLetterOf 'u') * exactly ['+'] * (places + between 1 6 isHexDigit * exactly ['-'] * between 1 6 isHexDigit)

/-! ## Longest beginnings -/

/-- The first `n` characters of `s` are the longest beginning of `s` in the language. -/
def IsLongest (l : Language Char) (s : Text) (n : Nat) : Prop :=
  n ≤ s.length ∧ s.take n ∈ l ∧ ∀ m ≤ s.length, s.take m ∈ l → m ≤ n

end CssLexer.Grammar
