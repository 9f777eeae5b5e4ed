/-
  CssLexer.Production — the productions of the token grammar, and which of them a text falls to.

  The productions are tried in a fixed order and the first that finds a lexeme wins, which decides every overlap:
  `url(` before an identifier, a range of code points before an identifier, anything before a single character.
-/

import CssLexer.Lexeme

namespace CssLexer

inductive Production where
  | comment
  | whitespace
  | string
  | uri
  | unicodeRange
  | embedding
  | attributeOperator
  | numeric
  | hash
  | identLike
  | delim
  deriving DecidableEq, Repr

namespace Production

/-- Every production, in order of priority. -/
def all : List Production :=
  [comment, whitespace, string, uri, unicodeRange, embedding, attributeOperator, numeric, hash, identLike, delim]

theorem mem_all (p : Production) : p ∈ all := by cases p <;> decide

def label : Production → Text
  | comment => "comment"
  | whitespace => "whitespace"
  | string => "string"
  | uri => "uri"
  | unicodeRange => "unicode-range"
  | embedding => "cdo-cdc"
  | attributeOperator => "match"
  | numeric => "numeric"
  | hash => "hash"
  | identLike => "ident-like"
  | delim => "delim"

def lexeme? : Production → Text → Option Lexeme
  | comment => Lexeme.comment?
  | whitespace => Lexeme.space?
  | string => Lexeme.string?
  | uri => Lexeme.uri?
  | unicodeRange => Lexeme.unicodeRange?
  | embedding => Lexeme.embedding?
  | attributeOperator => Lexeme.attributeOperator?
  | numeric => Lexeme.numeric?
  | hash => Lexeme.hash?
  | identLike => Lexeme.identLike?
  | delim => Lexeme.delim?

/-- The first production that finds a lexeme at the start of a text, and that lexeme. -/
def select? (s : Text) : Option (Production × Lexeme) :=
  all.findSome? fun p => (p.lexeme? s).map (p, ·)

end Production

end CssLexer
