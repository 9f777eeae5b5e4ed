/-
  CssLexer.Command.Views — tokens as they are shown: one line each, one row for each kind, or as JSON.

  Listings and summaries are set off by colour on a terminal. JSON is an array, indented by two spaces; in its strings
  the quotation mark, the backslash and the characters below U+0020 are escaped, the five with a short escape by that
  one, and everything else stands as it is.
-/

import CssLexer.Token

namespace CssLexer.Command

/-! ## Colour -/

inductive Style where
  | yellow
  | red
  | cyan
  | dim
  | boldRed
  deriving DecidableEq, Repr

/-- The control sequence that turns a style on. -/
def Style.opening : Style → Text
  | yellow => "\x1b[33m"
  | red => "\x1b[31m"
  | cyan => "\x1b[36m"
  | dim => "\x1b[2m"
  | boldRed => "\x1b[1m\x1b[31m"

def Style.closing : Style → Text
  | yellow => "\x1b[39m"
  | red => "\x1b[39m"
  | cyan => "\x1b[39m"
  | dim => "\x1b[0m"
  | boldRed => "\x1b[39m\x1b[0m"

/-- A text in a style, or as it is without colour. -/
def paint (color : Bool) (style : Style) (s : Text) : Text :=
  if color then style.opening ++ s ++ style.closing else s

def warningLine (color : Bool) (line : Text) : Text := paint color .yellow line ++ "\n"

/-! ## Listings and summaries -/

def kindWidth : Nat := 15

def kindCell (s : Text) : Text := s.rightpad kindWidth ' '

/-- Line and column, aligned at the colon between them. -/
def placeCell (t : Token) : Text := (decimal t.line).leftpad 4 ' ' ++ ":" ++ (decimal t.column).rightpad 4 ' '

def listingLine (color : Bool) (t : Token) : Text :=
  paint color .dim (placeCell t) ++ " " ++
    paint color (if t.isMalformed then .boldRed else .cyan) (kindCell t.kind.label) ++ " " ++ quoted t.value ++ "\n"

def listing (color : Bool) (tokens : List Token) : Text :=
  "=== Tokens (" ++ decimal tokens.length ++ ") ===\n" ++ tokens.flatMap (listingLine color)

def countKind (tokens : List Token) (k : Kind) : Nat := tokens.countP fun t => t.kind == k

def summaryRow (color : Bool) (tokens : List Token) (k : Kind) : Text :=
  match countKind tokens k with
  | 0 => []
  | n => paint (color && k.isMalformed) .red (kindCell k.label) ++ " " ++ decimal n ++ "\n"

def summary (color : Bool) (tokens : List Token) : Text :=
  Kind.all.flatMap (summaryRow color tokens) ++ kindCell "total" ++ " " ++ decimal tokens.length ++ "\n"

/-! ## JSON -/

def jsonChar (c : Char) : Text :=
  match c with
  | '"' => "\\\""
  | '\\' => "\\\\"
  | '\x08' => "\\b"
  | '\x0c' => "\\f"
  | '\n' => "\\n"
  | '\r' => "\\r"
  | '\t' => "\\t"
  | c => if c.toNat < 0x20 then "\\u" ++ (hexadecimal c.toNat).leftpad 4 '0' else [c]

def jsonString (s : Text) : Text := "\"" ++ s.flatMap jsonChar ++ "\""

def jsonToken (t : Token) : Text :=
  "  \x7b\n    \"kind\": " ++ jsonString t.kind.jsonName ++ ",\n    \"value\": " ++ jsonString t.value ++
    ",\n    \"line\": " ++ decimal t.line ++ ",\n    \"column\": " ++ decimal t.column ++ "\n  \x7d"

def json (tokens : List Token) : Text :=
  match tokens with
  | [] => "[]"
  | t :: ts => "[\n" ++ jsonToken t ++ ts.flatMap (fun t => (",\n" ++ jsonToken t : Text)) ++ "\n]"

end CssLexer.Command
