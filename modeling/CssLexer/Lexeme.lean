/-
  CssLexer.Lexeme — what the productions of the token grammar find at the start of a text: a kind and a length.

  (1) Escapes. An escape is a backslash with one to six hexadecimal digits and at most one blank behind them (a
  carriage return and its line feed count as one), or a backslash with one character that is neither a newline nor a
  digit of that sort. A backslash before a newline or at the end of the text starts no escape.

  (2) Names. A name is a run of name characters and escapes. An identifier is a name that starts as one, with at most
  one `-` before it: `-moz-border` is an identifier, `--x` and `-1` are not. Hashes, at-keywords and functions are
  made of them.

  (3) Numbers. A number is extended in place: a `%` or an identifier directly behind it belongs to the same lexeme. A
  dot counts only if a digit follows it, so `4.` is the number `4` and a dot.

  (4) Strings. A string ends at its own quotation mark. A newline that is not behind a backslash cuts it off and is no
  part of it; the end of the text cuts it off too, and a backslash standing there is still part of it.

  (5) Urls. The body of a url, quoted or not, is taken as it stands: a comment mark inside it means nothing. Whatever
  opens a url and is not closed in form is a bad url up to where the form breaks.

  (6) Ranges of code points, `u+0-7f` or `u+4??`. Digits and question marks share six places. A second bound is
  possible only without question marks, and only if it has a digit.

  (7) Lexemes told apart by their first characters alone: comments, blanks, the marks of an embedded style sheet,
  attribute operators and single characters.
-/

import CssLexer.Kind

namespace CssLexer

/-- A kind of token and the number of characters it takes from the start of the text. -/
structure Lexeme where
  kind : Kind
  length : Nat
  deriving DecidableEq, Repr

/-! ## (1) Escapes -/

def newlineLength : Text → Nat
  | '\r' :: '\n' :: _ => 2
  | c :: _ => if isNewline c then 1 else 0
  | [] => 0

/-- The length of the one blank that may end a hexadecimal escape. -/
def terminatorLength : Text → Nat
  | '\r' :: '\n' :: _ => 2
  | c :: _ => if isWhitespace c then 1 else 0
  | [] => 0

/-- The length of what belongs to an escape behind its backslash. -/
def escapeTail? : Text → Option Nat
  | [] => none
  | c :: r =>
    if isHexDigit c then
      let digits := countUpTo 6 isHexDigit (c :: r)
      some (digits + terminatorLength ((c :: r).drop digits))
    else if isNewline c then none
    else some 1

def escapeLength? : Text → Option Nat
  | '\\' :: r => (escapeTail? r).map (1 + ·)
  | _ => none

def charOrEscape (p : Char → Bool) : Item := fun c r =>
  if p c then some 0 else if c == '\\' then escapeTail? r else none

/-! ## (2) Names -/

def nameLength (s : Text) : Nat := runLength (charOrEscape isNameChar) s

/-- The length of the name at the start of a text, if its first item may start an identifier. -/
def startedNameLength? : Text → Option Nat
  | [] => none
  | c :: r => (charOrEscape isNameStart c r).map fun k => 1 + k + nameLength (r.drop k)

def identLength? : Text → Option Nat
  | '-' :: r => (startedNameLength? r).map (1 + ·)
  | s => startedNameLength? s

namespace Lexeme

def hash? : Text → Option Lexeme
  | '#' :: r => match nameLength r with
    | 0 => none
    | n => some ⟨.hash, 1 + n⟩
  | _ => none

/-- An identifier, alone, after an `@`, or before a parenthesis that belongs to it. -/
def identLike? : Text → Option Lexeme
  | '@' :: r => (identLength? r).map fun n => ⟨.atKeyword, 1 + n⟩
  | s => (identLength? s).map fun n =>
    match s.drop n with
    | '(' :: _ => ⟨.function, n + 1⟩
    | _ => ⟨.ident, n⟩

end Lexeme

/-! ## (3) Numbers -/

def fractionLength : Text → Nat
  | '.' :: r => match countWhile isDigit r with
    | 0 => 0
    | n => 1 + n
  | _ => 0

def numberLength? (s : Text) : Option Nat :=
  let digits := countWhile isDigit s
  match digits + fractionLength (s.drop digits) with
  | 0 => none
  | n + 1 => some (n + 1)

def Lexeme.numeric? (s : Text) : Option Lexeme :=
  (numberLength? s).map fun n =>
    match s.drop n with
    | '%' :: _ => ⟨.percentage, n + 1⟩
    | r => match identLength? r with
      | some unit => ⟨.dimension, n + unit⟩
      | none => ⟨.number, n⟩

/-! ## (4) Strings -/

/-- One item of a string quoted by `quote`: a plain character, an escape, a backslash with a newline, or a backslash
at the end of the text. -/
def quotedItem (quote : Char) : Item := fun c r =>
  if c == quote then none
  else if c == '\\' then some ((escapeTail? r).getD (newlineLength r))
  else if isNewline c then none
  else some 0

/-- The length of the string at the start of a text, and whether it is closed. -/
def quotation? : Text → Option (Nat × Bool)
  | [] => none
  | quote :: r =>
    if isQuote quote then
      let body := runLength (quotedItem quote) r
      if (r.drop body).head? = some quote then some (1 + body + 1, true) else some (1 + body, false)
    else none

def Lexeme.string? (s : Text) : Option Lexeme :=
  (quotation? s).map fun (n, closed) => ⟨if closed then .string else .badString, n⟩

/-! ## (5) Urls -/

/-- What is behind `url(`, written in any mixture of cases, at the start of a text. -/
def afterUrlOpening? : Text → Option Text
  | u :: r :: l :: '(' :: rest =>
    if isLetterOf 'u' u && isLetterOf 'r' r && isLetterOf 'l' l then some rest else none
  | _ => none

namespace Lexeme

/-- The url of `n` characters before `s`, completed by blanks and the closing parenthesis. -/
def closeUrl (n : Nat) (s : Text) : Lexeme :=
  let blanks := countWhile isWhitespace s
  match s.drop blanks with
  | ')' :: _ => ⟨.uri, n + blanks + 1⟩
  | _ => ⟨.badUri, n + blanks⟩

def uri? (s : Text) : Option Lexeme :=
  (afterUrlOpening? s).map fun rest =>
    let blanks := countWhile isWhitespace rest
    let body := rest.drop blanks
    match quotation? body with
    | some (n, false) => ⟨.badUri, 4 + blanks + n⟩
    | some (n, true) => closeUrl (4 + blanks + n) (body.drop n)
    | none =>
      let n := runLength (charOrEscape isUrlChar) body
      closeUrl (4 + blanks + n) (body.drop n)

end Lexeme

/-! ## (6) Ranges of code points -/

/-- The length of the second bound at the start of a text, its `-` included. -/
def upperBoundLength : Text → Nat
  | '-' :: r => match countUpTo 6 isHexDigit r with
    | 0 => 0
    | n => 1 + n
  | _ => 0

def Lexeme.unicodeRange? : Text → Option Lexeme
  | u :: '+' :: r =>
    if isLetterOf 'u' u then
      let digits := countUpTo 6 isHexDigit r
      let wildcards := countUpTo (6 - digits) (· == '?') (r.drop digits)
      if digits + wildcards = 0 then none
      else if wildcards = 0 then some ⟨.unicodeRange, 2 + digits + upperBoundLength (r.drop digits)⟩
      else some ⟨.unicodeRange, 2 + digits + wildcards⟩
    else none
  | _ => none

/-! ## (7) Marks -/

/-- One character of a comment's body, which ends before the first `*/`. -/
def commentItem : Item := fun c r => if c == '*' && r.head? == some '/' then none else some 0

namespace Lexeme

/-- A comment; one that is left open reaches to the end of the text. -/
def comment? : Text → Option Lexeme
  | '/' :: '*' :: r =>
    let body := runLength commentItem r
    match r.drop body with
    | [] => some ⟨.comment, 2 + body⟩
    | _ => some ⟨.comment, 2 + body + 2⟩
  | _ => none

def space? (s : Text) : Option Lexeme :=
  match countWhile isWhitespace s with
  | 0 => none
  | n + 1 => some ⟨.space, n + 1⟩

/-- The mark that opens or closes an SGML comment around a style sheet. -/
def embedding? : Text → Option Lexeme
  | '<' :: '!' :: '-' :: '-' :: _ => some ⟨.cdo, 4⟩
  | '-' :: '-' :: '>' :: _ => some ⟨.cdc, 3⟩
  | _ => none

def attributeOperator? : Text → Option Lexeme
  | '~' :: '=' :: _ => some ⟨.includes, 2⟩
  | '|' :: '=' :: _ => some ⟨.dashMatch, 2⟩
  | '^' :: '=' :: _ => some ⟨.prefixMatch, 2⟩
  | '$' :: '=' :: _ => some ⟨.suffixMatch, 2⟩
  | '*' :: '=' :: _ => some ⟨.substringMatch, 2⟩
  | _ => none

def delim? : Text → Option Lexeme
  | [] => none
  | c :: _ => if isControl c then none else some ⟨.delim, 1⟩

end Lexeme

end CssLexer
