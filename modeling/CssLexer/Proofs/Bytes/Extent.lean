/-
  CssLexer.Proofs.Bytes.Extent — the productions once more, with every length in bytes.

  A lexeme is matched here as on stored text: lengths are bare counts of bytes, added up by hand, and each place where
  a matcher cuts its text at such a count, or takes one count from another, can miss (`Misstep`). What cannot miss (the
  first character, a beginning compared with a mark, a byte looked up) is a plain function. Loops cut their text anew
  at every turn, behind what they have counted.

  Proved: every turn of a loop counts at least one byte of a text that is not empty (`item?_pos`, `quoted?_pos`), so
  the loops end.
-/

import CssLexer.Production
import CssLexer.Proofs.Bytes.Cut

namespace CssLexer

/-- A kind of token and the number of bytes it takes from the start of the text. -/
structure Extent where
  kind : Kind
  bytes : Nat
  deriving DecidableEq, Repr

/-- A lexeme of a text, with its length in bytes. -/
def Lexeme.extent (s : Text) (l : Lexeme) : Extent := ⟨l.kind, s.bytesIn l.length⟩

namespace Extent

/-- The difference of two counts. -/
def minus (m n : Nat) : Except Misstep Nat := if m < n then .error .belowZero else .ok (m - n)

def blanks (s : Text) : Except Misstep Nat := minus s.byteLength (Text.byteLength (s.dropWhile isWhitespace))

/-- The byte offset of the first place where a text goes on with `mark`. -/
def find? (mark : Text) : Text → Option Nat
  | [] => if mark.isEmpty then some 0 else none
  | c :: r => if mark.isPrefixOf (c :: r) then some 0 else (find? mark r).map (c.utf8Size + ·)

/-! ## Escapes and names -/

/-- The length of the escape at the start of a text. -/
def escape? : Text → Except Misstep (Option Nat)
  | '\\' :: first :: r =>
    if isHexDigit first then do
      let digits := Text.countBytes isHexDigit ((Text.utf8 (first :: r)).take 6)
      let after ← Text.behind (first :: r) digits
      return some (1 + digits + terminatorLength after)
    else if isNewline first then .ok none
    else .ok (some (1 + first.utf8Size))
  | _ => .ok none

theorem escape?_pos {s : Text} {n : Nat} (h : escape? s = .ok (some n)) : 0 < n := by
  unfold escape? at h
  split at h
  · rename_i first r
    split at h
    · simp only [bind_eq_ok_iff] at h
      obtain ⟨after, -, h⟩ := h
      cases h
      omega
    · split at h
      · cases h
      · cases h; omega
  · cases h

/-- The length of the character of class `p`, or of the escape, at the start of a text. -/
def item? (p : Char → Bool) : Text → Except Misstep (Option Nat)
  | [] => .ok none
  | c :: r => if p c then .ok (some c.utf8Size) else if c = '\\' then escape? (c :: r) else .ok none

theorem item?_pos {p : Char → Bool} {s : Text} {n : Nat} (h : item? p s = .ok (some n)) : s ≠ [] ∧ 0 < n := by
  cases s with
  | nil => cases h
  | cons c r =>
    refine ⟨List.cons_ne_nil _ _, ?_⟩
    rw [item?] at h
    split at h
    · cases h
      exact c.utf8Size_pos
    · split at h
      · exact escape?_pos h
      · cases h

/-- What a loop counts in one turn at the start of a text; it ends where nothing is counted. -/
structure Turn where
  length? : Text → Except Misstep (Option Nat)
  counts : ∀ {s : Text} {n : Nat}, length? s = .ok (some n) → s ≠ [] ∧ 0 < n

/-- A text is cut before its end only at a count below its length. -/
theorem lt_byteLength_of_behind {s r : Text} {n : Nat} (h : s.behind n = .ok r) (hr : r ≠ []) :
    n < s.byteLength := by
  obtain ⟨a, rfl, rfl⟩ := Text.behind_eq_ok_iff.mp h
  have := Text.length_le_byteLength r
  have := List.length_pos_iff.mpr hr
  rw [Text.byteLength_append]
  omega

/-- Counts on from `len`, turn after turn. -/
def Turn.loop (t : Turn) (s : Text) (len : Nat) : Except Misstep Nat :=
  match _h : s.behind len with
  | .error e => .error e
  | .ok rest =>
    match _ht : t.length? rest with
    | .error e => .error e
    | .ok none => .ok len
    | .ok (some n) => t.loop s (len + n)
termination_by s.byteLength - len
decreasing_by
  have hcounts := t.counts _ht
  have := lt_byteLength_of_behind _h hcounts.1
  omega

/-- A loop is one turn and the loop behind it. -/
theorem Turn.loop_eq (t : Turn) (s : Text) (len : Nat) :
    t.loop s len = (do
      match ← t.length? (← s.behind len) with
      | none => return len
      | some n => t.loop s (len + n)) := by
  rw [loop]
  cases hb : s.behind len with
  | error e => rfl
  | ok rest =>
    rw [ok_bind]
    cases ht : t.length? rest with
    | error e => dsimp only; rw [ht]; rfl
    | ok answer => dsimp only; rw [ht]; cases answer <;> rfl

def itemTurn (p : Char → Bool) : Turn := ⟨item? p, item?_pos⟩

def name (s : Text) : Except Misstep Nat := (itemTurn isNameChar).loop s 0

/-- The length of an identifier of which `dash` bytes stand before `s`. -/
def identBehind? (dash : Nat) (s : Text) : Except Misstep (Option Nat) := do
  match ← item? isNameStart s with
  | none => return none
  | some start => return some (dash + start + (← name (← s.behind start)))

def ident? (s : Text) : Except Misstep (Option Nat) := do
  let dash := if s.head? = some '-' then 1 else 0
  identBehind? dash (← s.behind dash)

/-! ## Numbers and strings -/

/-- The length of what stands behind the first `n` bytes of a text: the ASCII character `mark` and the bytes that
`count` counts behind it; zero if those are none. -/
def marked (mark : Char) (count : List UInt8 → Nat) (s : Text) (n : Nat) : Nat :=
  if s.utf8[n]?.any (Text.byteIs (· == mark)) then
    match count (s.utf8.drop (n + 1)) with
    | 0 => 0
    | k => 1 + k
  else 0

def number? (s : Text) : Option Nat :=
  let integer := Text.countBytes isDigit s.utf8
  match integer + marked '.' (Text.countBytes isDigit) s integer with
  | 0 => none
  | len => some len

def afterBackslash (s : Text) : Except Misstep Nat := do
  match ← s.behind 1 with
  | [] => return 1
  | c :: r =>
    if c = '\r' ∧ r.head? = some '\n' then return 3
    else if isNewline c then return 2
    else return (← escape? s).getD (1 + c.utf8Size)

theorem afterBackslash_pos {s : Text} {n : Nat} (h : afterBackslash s = .ok n) : 0 < n := by
  simp only [afterBackslash, bind_eq_ok_iff] at h
  obtain ⟨rest, -, h⟩ := h
  split at h
  · cases h
    exact Nat.one_pos
  · split at h
    · cases h
      omega
    · split at h
      · cases h
        omega
      · simp only [bind_eq_ok_iff] at h
        obtain ⟨answer, hanswer, h⟩ := h
        cases h
        cases answer with
        | none => rw [Option.getD_none]; omega
        | some k => exact escape?_pos hanswer

/-- The length of what goes on the body of a string quoted by `quote`, at the start of a text. -/
def quoted? (quote : Char) : Text → Except Misstep (Option Nat)
  | [] => .ok none
  | c :: r =>
    if c = quote then .ok none
    else if c = '\\' then return some (← afterBackslash (c :: r))
    else if isNewline c then .ok none
    else .ok (some c.utf8Size)

theorem quoted?_pos {quote : Char} {s : Text} {n : Nat} (h : quoted? quote s = .ok (some n)) : s ≠ [] ∧ 0 < n := by
  cases s with
  | nil => cases h
  | cons c r =>
    refine ⟨List.cons_ne_nil _ _, ?_⟩
    rw [quoted?] at h
    split at h
    · cases h
    · split at h
      · rw [bind_eq_ok_iff] at h
        obtain ⟨k, hk, h⟩ := h
        cases h
        exact afterBackslash_pos hk
      · split at h
        · cases h
        · cases h
          exact c.utf8Size_pos

def quotedTurn (quote : Char) : Turn := ⟨quoted? quote, quoted?_pos⟩

/-- The length of the string at the start of a text, and whether it is closed. -/
def quotation? : Text → Except Misstep (Option (Nat × Bool))
  | [] => .ok none
  | quote :: r =>
    if isQuote quote then do
      let len ← (quotedTurn quote).loop (quote :: r) 1
      if (← Text.behind (quote :: r) len).head? = some quote then return some (len + 1, true)
      else return some (len, false)
    else .ok none

/-! ## Productions -/

def comment? (s : Text) : Option Extent :=
  if ['/', '*'].isPrefixOf s then
    some ⟨.comment, match find? ['*', '/'] (s.drop 2) with
      | none => s.byteLength
      | some body => 2 + body + 2⟩
  else none

def space? (s : Text) : Except Misstep (Option Extent) := do
  match ← blanks s with
  | 0 => return none
  | n => return some ⟨.space, n⟩

def string? (s : Text) : Except Misstep (Option Extent) := do
  match ← quotation? s with
  | none => return none
  | some (n, closed) => return some ⟨if closed then .string else .badString, n⟩

/-- The url of `len` bytes at the start of a text, completed by blanks and the closing parenthesis. -/
def closeUrl (s : Text) (len : Nat) : Except Misstep Extent := do
  let len := len + (← blanks (← s.behind len))
  if (← s.behind len).head? = some ')' then return ⟨.uri, len + 1⟩ else return ⟨.badUri, len⟩

/-- Whether a text starts with `url(`, written in any mixture of cases. -/
def opensUrl (s : Text) : Bool := (s.charsIn? 4).any fun k => (s.take k).map Char.toLower == ['u', 'r', 'l', '(']

def uri? (s : Text) : Except Misstep (Option Extent) :=
  if opensUrl s then do
    let len := 4 + (← blanks (← s.behind 4))
    let body ← s.behind len
    if body.head?.any isQuote then
      match ← quotation? body with
      | none => return none
      | some (n, false) => return some ⟨.badUri, len + n⟩
      | some (n, true) => return some (← closeUrl s (len + n))
    else return some (← closeUrl s (len + (← (itemTurn isUrlChar).loop body 0)))
  else .ok none

def unicodeRange? (s : Text) : Except Misstep (Option Extent) :=
  let bytes := s.utf8
  if bytes[0]?.any (Text.byteIs (isLetterOf 'u')) && bytes[1]?.any (Text.byteIs (· == '+')) then do
    let digits := Text.countBytes isHexDigit ((bytes.drop 2).take 6)
    let wildcards := Text.countBytes (· == '?') ((bytes.drop (2 + digits)).take (← minus 6 digits))
    let len := 2 + digits + wildcards
    if digits + wildcards = 0 then return none
    else if wildcards = 0 then
      return some ⟨.unicodeRange, len + marked '-' (fun b => Text.countBytes isHexDigit (b.take 6)) s len⟩
    else return some ⟨.unicodeRange, len⟩
  else .ok none

def embedding? (s : Text) : Option Extent :=
  if ['<', '!', '-', '-'].isPrefixOf s then some ⟨.cdo, 4⟩
  else if ['-', '-', '>'].isPrefixOf s then some ⟨.cdc, 3⟩
  else none

/-- The kinds of attribute operators, by the character before the `=`. -/
def operators : List (Char × Kind) :=
  [('~', .includes), ('|', .dashMatch), ('^', .prefixMatch), ('$', .suffixMatch), ('*', .substringMatch)]

def attributeOperator? (s : Text) : Option Extent :=
  (operators.find? fun o => s.utf8[0]?.any (Text.byteIs (· == o.1)) && s.utf8[1]?.any (Text.byteIs (· == '='))).map
    fun o => ⟨o.2, 2⟩

def numeric? (s : Text) : Except Misstep (Option Extent) :=
  match number? s with
  | none => .ok none
  | some len => do
    let rest ← s.behind len
    if rest.head? = some '%' then return some ⟨.percentage, len + 1⟩
    else match ← ident? rest with
      | some unit => return some ⟨.dimension, len + unit⟩
      | none => return some ⟨.number, len⟩

def hash? : Text → Except Misstep (Option Extent)
  | '#' :: r => do
    match ← name r with
    | 0 => return none
    | n => return some ⟨.hash, 1 + n⟩
  | _ => .ok none

def identLike? : Text → Except Misstep (Option Extent)
  | '@' :: r => return (← ident? r).map fun n => ⟨.atKeyword, 1 + n⟩
  | s => do
    match ← ident? s with
    | none => return none
    | some len =>
      if (← s.behind len).head? = some '(' then return some ⟨.function, len + 1⟩
      else return some ⟨.ident, len⟩

def delim? : Text → Option Extent
  | [] => none
  | c :: _ => if isControl c then none else some ⟨.delim, c.utf8Size⟩

end Extent

namespace Production

/-- The lexeme that a production finds at the start of a text, by bytes. -/
def extent? : Production → Text → Except Misstep (Option Extent)
  | comment, s => .ok (Extent.comment? s)
  | whitespace, s => Extent.space? s
  | string, s => Extent.string? s
  | uri, s => Extent.uri? s
  | unicodeRange, s => Extent.unicodeRange? s
  | embedding, s => .ok (Extent.embedding? s)
  | attributeOperator, s => .ok (Extent.attributeOperator? s)
  | numeric, s => Extent.numeric? s
  | hash, s => Extent.hash? s
  | identLike, s => Extent.identLike? s
  | delim, s => .ok (Extent.delim? s)

end Production

end CssLexer
