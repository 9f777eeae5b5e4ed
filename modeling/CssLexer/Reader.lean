/-
  CssLexer.Reader — places in a text, and a text together with the place reached in it.

  Only a line feed starts a new line, so a carriage return with its line feed is one line break and a form feed is
  none. Columns count characters and offsets count bytes.

  A reader is moved by characters (`take`), which cannot fail, or by a count of bytes (`advance?`), which fails and
  leaves the reader as it is when the count runs past the end or ends inside a character.

  Proved: moving over `s ++ t` is moving over `s` and then over `t` (`after_append`).
-/

import CssLexer.Text

namespace CssLexer

structure Position where
  line : Nat
  column : Nat
  /-- Bytes before this place. -/
  offset : Nat
  deriving DecidableEq, Repr

namespace Position

def start : Position := ⟨1, 1, 0⟩

def step (p : Position) (c : Char) : Position :=
  if c = '\n' then ⟨p.line + 1, 1, p.offset + c.utf8Size⟩ else ⟨p.line, p.column + 1, p.offset + c.utf8Size⟩

def after (p : Position) (s : Text) : Position := s.foldl step p

@[simp] theorem after_nil (p : Position) : p.after [] = p := rfl

@[simp] theorem after_append (p : Position) (s t : Text) : p.after (s ++ t) = (p.after s).after t :=
  List.foldl_append

end Position

structure Reader where
  /-- What is still to be read. -/
  remaining : Text
  position : Position
  deriving DecidableEq, Repr

namespace Reader

def ofText (s : Text) : Reader := ⟨s, .start⟩

def atEnd (r : Reader) : Bool := r.remaining.isEmpty

def take (r : Reader) (n : Nat) : Text × Reader :=
  let taken := r.remaining.take n
  (taken, ⟨r.remaining.drop n, r.position.after taken⟩)

def advance? (r : Reader) (bytes : Nat) : Option (Text × Reader) :=
  (Text.charsIn? r.remaining bytes).map r.take

end Reader

end CssLexer
