/-
  CssLexer.Kind — the kinds of tokens, their names, and which of them report malformed input.
-/

import CssLexer.Text

namespace CssLexer

inductive Malformation where
  /-- A quoted string cut off by a newline or the end of the text. -/
  | unterminatedString
  /-- An opened url without a valid body and a closing parenthesis. -/
  | malformedUrl
  /-- A character that no production accepts. -/
  | unexpectedCharacter
  deriving DecidableEq, Repr

inductive Kind where
  | ident
  | function
  | atKeyword
  | hash
  | string
  | badString
  | uri
  | badUri
  | unicodeRange
  | number
  | percentage
  | dimension
  | cdo
  | cdc
  | space
  | comment
  | includes
  | dashMatch
  | prefixMatch
  | suffixMatch
  | substringMatch
  /-- Any other single character. -/
  | delim
  /-- A byte order mark at the very start of the text. -/
  | byteOrderMark
  /-- The end of the text; it is no part of a token list. -/
  | endOfText
  /-- A character that no production accepts. -/
  | unexpected
  deriving DecidableEq, Repr

namespace Kind

/-- Every kind, in the order of summaries. -/
def all : List Kind :=
  [ident, function, atKeyword, hash, string, badString, uri, badUri, unicodeRange, number, percentage, dimension,
   cdo, cdc, space, comment, includes, dashMatch, prefixMatch, suffixMatch, substringMatch, delim, byteOrderMark,
   endOfText, unexpected]

theorem mem_all (k : Kind) : k ∈ all := by cases k <;> decide

/-- The name of a kind in the grammar, as listings, summaries and traces show it. -/
def label : Kind → Text
  | ident => "IDENT"
  | function => "FUNCTION"
  | atKeyword => "ATKEYWORD"
  | hash => "HASH"
  | string => "STRING"
  | badString => "BAD_STRING"
  | uri => "URI"
  | badUri => "BAD_URI"
  | unicodeRange => "UNICODE-RANGE"
  | number => "NUMBER"
  | percentage => "PERCENTAGE"
  | dimension => "DIMENSION"
  | cdo => "CDO"
  | cdc => "CDC"
  | space => "S"
  | comment => "COMMENT"
  | includes => "INCLUDES"
  | dashMatch => "DASHMATCH"
  | prefixMatch => "PREFIXMATCH"
  | suffixMatch => "SUFFIXMATCH"
  | substringMatch => "SUBSTRINGMATCH"
  | delim => "CHAR"
  | byteOrderMark => "BOM"
  | endOfText => "EOF"
  | unexpected => "error"

def jsonName : Kind → Text
  | ident => "Ident"
  | function => "Function"
  | atKeyword => "AtKeyword"
  | hash => "Hash"
  | string => "String"
  | badString => "BadString"
  | uri => "URI"
  | badUri => "BadURI"
  | unicodeRange => "UnicodeRange"
  | number => "Number"
  | percentage => "Percentage"
  | dimension => "Dimension"
  | cdo => "CDO"
  | cdc => "CDC"
  | space => "S"
  | comment => "Comment"
  | includes => "Includes"
  | dashMatch => "DashMatch"
  | prefixMatch => "PrefixMatch"
  | suffixMatch => "SuffixMatch"
  | substringMatch => "SubstringMatch"
  | delim => "Char"
  | byteOrderMark => "BOM"
  | endOfText => "EOF"
  | unexpected => "Error"

def malformation? : Kind → Option Malformation
  | badString => some .unterminatedString
  | badUri => some .malformedUrl
  | unexpected => some .unexpectedCharacter
  | _ => none

def isMalformed (k : Kind) : Bool := k.malformation?.isSome

end Kind

end CssLexer
