/-
  CssLexer.Text — texts as lists of characters: their bytes, runs at their start, classes of characters, numerals.

  Everything in this library reads a text one character at a time; bytes matter only for offsets and for readers
  that are moved by a byte count. A run is of characters of a class, or of items of several characters.

  The classes are those of the CSS 2.1 token grammar. Letters and digits are the ASCII ones. Every character from
  U+0080 up belongs to `isNonascii` and so to names: U+00A0, U+2028, the C1 controls and a byte order mark inside a
  text are never whitespace, newlines or controls to the lexer.

  Numerals are decimal, or hexadecimal in either case.

  Proved:
  - `byteLength` adds up over `++`.
  - `runLength_cons`: a run is its first item and the run behind it.
-/

namespace CssLexer

/-- A text, one Unicode scalar value after another. -/
abbrev Text := List Char

/-- A string literal where a text is wanted. -/
instance : Coe String Text := ⟨String.toList⟩

namespace Text

def byteLength (s : Text) : Nat := s.foldl (fun n c => n + c.utf8Size) 0

theorem foldl_utf8Size (s : Text) (n : Nat) : s.foldl (fun n c => n + c.utf8Size) n = n + byteLength s := by
  induction s generalizing n with
  | nil => rfl
  | cons c s ih => simp only [byteLength, List.foldl_cons]; rw [ih, ih (0 + c.utf8Size)]; omega

@[simp] theorem byteLength_nil : byteLength [] = 0 := rfl

@[simp] theorem byteLength_cons (c : Char) (s : Text) : byteLength (c :: s) = c.utf8Size + byteLength s := by
  rw [byteLength, List.foldl_cons, foldl_utf8Size, Nat.zero_add]

@[simp] theorem byteLength_append (s t : Text) : byteLength (s ++ t) = byteLength s + byteLength t := by
  rw [byteLength, List.foldl_append, foldl_utf8Size, foldl_utf8Size, Nat.zero_add]

/-- How many characters at the start of `s` make up exactly `bytes` bytes; none if `s` is shorter than that or the
count ends inside a character. -/
def charsIn? (s : Text) (bytes : Nat) : Option Nat := go s bytes 0
where
  go : Text → Nat → Nat → Option Nat
    | _, 0, n => some n
    | [], _ + 1, _ => none
    | c :: r, b + 1, n => if c.utf8Size ≤ b + 1 then go r (b + 1 - c.utf8Size) (n + 1) else none

end Text

/-! ## Runs -/

def countWhile (p : Char → Bool) (s : Text) : Nat := (s.takeWhile p).length

def countUpTo (limit : Nat) (p : Char → Bool) (s : Text) : Nat := countWhile p (s.take limit)

/-- One item of a run. At a character with a text behind it: how many characters of that text belong to the same
item, or nothing if no item starts there. -/
abbrev Item := Char → Text → Option Nat

def runLength (item : Item) (s : Text) : Nat := go 0 s 0
where
  /-- `pending` characters of the current item are still to come, `n` are counted. -/
  go (pending : Nat) (s : Text) (n : Nat) : Nat :=
    match pending, s with
    | _, [] => n
    | k + 1, _ :: r => go k r (n + 1)
    | 0, c :: r =>
      match item c r with
      | none => n
      | some k => go k r (n + 1)

theorem runLength.go_eq (item : Item) (pending : Nat) (s : Text) (n : Nat) :
    runLength.go item pending s n = n + min pending s.length + runLength item (s.drop pending) := by
  induction s generalizing pending n with
  | nil => simp [runLength, runLength.go]
  | cons c r ih =>
    cases pending with
    | succ k => rw [runLength.go, ih]; simp; omega
    | zero =>
      simp only [List.drop_zero, runLength, runLength.go]
      cases item c r with
      | none => simp
      | some k => simp only [ih]; omega

@[simp] theorem runLength_nil (item : Item) : runLength item [] = 0 := rfl

theorem runLength_cons (item : Item) (c : Char) (r : Text) :
    runLength item (c :: r) =
      match item c r with
      | none => 0
      | some k => 1 + min k r.length + runLength item (r.drop k) := by
  rw [runLength, runLength.go]
  cases item c r with
  | none => rfl
  | some k => simp only [runLength.go_eq]

/-! ## Classes of characters -/

def isWhitespace (c : Char) : Bool := c == ' ' || c == '\t' || c == '\n' || c == '\r' || c == '\x0c'

def isNewline (c : Char) : Bool := c == '\n' || c == '\r' || c == '\x0c'

def isNonascii (c : Char) : Bool := 0x80 ≤ c.toNat

def isDigit (c : Char) : Bool := '0' ≤ c && c ≤ '9'

def isHexDigit (c : Char) : Bool := isDigit c || ('a' ≤ c && c ≤ 'f') || ('A' ≤ c && c ≤ 'F')

def isLetter (c : Char) : Bool := ('a' ≤ c && c ≤ 'z') || ('A' ≤ c && c ≤ 'Z')

/-- A character that may start a name without a backslash. -/
def isNameStart (c : Char) : Bool := isLetter c || c == '_' || isNonascii c

/-- A character that may go on a name without a backslash. -/
def isNameChar (c : Char) : Bool := isNameStart c || isDigit c || c == '-'

/-- A character that may stand in a url without quotes and without a backslash. -/
def isUrlChar (c : Char) : Bool :=
  c == '!' || ('#' ≤ c && c ≤ '&') || ('*' ≤ c && c ≤ '[') || (']' ≤ c && c ≤ '~') || isNonascii c

def isQuote (c : Char) : Bool := c == '"' || c == '\''

def isControl (c : Char) : Bool := c.toNat < 0x20 || (0x7f ≤ c.toNat && c.toNat < 0xa0)

/-- Whether `c` is the lower-case ASCII letter `lower` in either case. -/
def isLetterOf (lower c : Char) : Bool := c.toLower == lower

/-! ## Numerals -/

def decimal (n : Nat) : Text := Nat.toDigits 10 n

/-- A number in hexadecimal with lower-case letters, without leading zeros. -/
def hexadecimal (n : Nat) : Text := Nat.toDigits 16 n

/-- The code point of a character as it is cited: `U+` and at least four upper-case hexadecimal digits. -/
def codePoint (c : Char) : Text := "U+" ++ ((hexadecimal c.toNat).map Char.toUpper).leftpad 4 '0'

def hexDigitValue (c : Char) : Nat :=
  if isDigit c then c.toNat - '0'.toNat
  else if 'a' ≤ c && c ≤ 'f' then c.toNat - 'a'.toNat + 10
  else c.toNat - 'A'.toNat + 10

def hexValue (digits : Text) : Nat := digits.foldl (fun n c => 16 * n + hexDigitValue c) 0

end CssLexer
