/-
  CssLexer.Proofs.Text.Format — ways of writing values that can be read back.

  A format reads back what it wrote whatever text follows, so formats can stand one behind another. Numbers need a mark
  behind them that is no digit, the words of a table must not be prefixes of one another, and a list needs a mark that
  starts none of its items; a string is the list of its characters up to the closing quotation mark.

  Proved:
  - `Format.read_print`, in each format that is built here: what was written is read back.
  - `Format.readAll?_print`: so is what makes up a whole text.
  - `escaped_quotedChar`, `escaped_jsonChar`: how a character stands in either kind of string.
  - `newline_notMem_quoted`: no line ends inside a quoted text.
-/

import CssLexer.Command.Views
import CssLexer.Proofs.Numerals
import CssLexer.Proofs.Reading
import Mathlib.Data.List.Infix

namespace CssLexer

/-! ## Formats -/

/-- A way of writing values and of reading them back from the front of a text. -/
structure Format (α : Type) where
  print : α → Text
  read : Text → Option (α × Text)
  read_print : ∀ (a : α) (rest : Text), read (print a ++ rest) = some (a, rest)

theorem dropPrefix?_append (t rest : Text) : (t ++ rest).dropPrefix? t = some rest := by
  rw [List.dropPrefix?_eq_some_iff]
  exact ⟨t, rfl, beq_self_eq_true t⟩

namespace Format

variable {α β : Type}

def readAll? (f : Format α) (s : Text) : Option α :=
  (f.read s).bind fun found => if found.2 = [] then some found.1 else none

theorem readAll?_print (f : Format α) (a : α) : f.readAll? (f.print a) = some a := by
  have hread := f.read_print a []
  rw [List.append_nil] at hread
  rw [readAll?, hread]
  rfl

/-- The same for values in another shape. -/
def convert (f : Format α) (unpack : β → α) (pack : α → β) (h : ∀ b, pack (unpack b) = b) : Format β where
  print b := f.print (unpack b)
  read s := (f.read s).map fun found => (pack found.1, found.2)
  read_print b rest := by rw [f.read_print, Option.map_some, h]

def behind (t : Text) (f : Format α) : Format α where
  print a := t ++ f.print a
  read s := (s.dropPrefix? t).bind f.read
  read_print a rest := by rw [List.append_assoc, dropPrefix?_append, Option.bind_some, f.read_print]

def before (f : Format α) (t : Text) : Format α where
  print a := f.print a ++ t
  read s := (f.read s).bind fun found => (found.2.dropPrefix? t).map (found.1, ·)
  read_print a rest := by rw [List.append_assoc, f.read_print, Option.bind_some, dropPrefix?_append]; rfl

def pair (f : Format α) (g : Format β) : Format (α × β) where
  print p := f.print p.1 ++ g.print p.2
  read s := (f.read s).bind fun first => (g.read first.2).map fun second => ((first.1, second.1), second.2)
  read_print p rest := by rw [List.append_assoc, f.read_print, Option.bind_some, g.read_print]; rfl

/-! ## Tables -/

theorem findSome?_eq_of_unique {γ : Type} {all : List α} {f : α → Option γ} {x : γ} {a : α} (ha : a ∈ all)
    (hfa : f a = some x) (hunique : ∀ b ∈ all, ∀ y, f b = some y → y = x) : all.findSome? f = some x := by
  cases h : all.findSome? f with
  | none =>
    rw [List.findSome?_eq_none_iff.mp h a ha] at hfa
    cases hfa
  | some y =>
    obtain ⟨b, hb, hfb⟩ := List.exists_of_findSome?_eq_some h
    rw [hunique b hb y hfb]

/-- One word for each of finitely many values, none of them the beginning of another. -/
def table (all : List α) (word : α → Text) (hall : ∀ a, a ∈ all)
    (hapart : ∀ a ∈ all, ∀ b ∈ all, word a <+: word b → a = b) : Format α where
  print := word
  read s := all.findSome? fun a => (s.dropPrefix? (word a)).map (a, ·)
  read_print a rest := by
    refine findSome?_eq_of_unique (hall a) (by rw [dropPrefix?_append]; rfl) ?_
    intro b _ y hy
    rw [Option.map_eq_some_iff] at hy
    obtain ⟨rest', hdrop, rfl⟩ := hy
    obtain ⟨word', happend, hword⟩ := List.dropPrefix?_eq_some_iff.mp hdrop
    rw [eq_of_beq hword] at happend
    have hprefix : word a <+: word b ∨ word b <+: word a :=
      List.prefix_or_prefix_of_prefix (List.prefix_append _ rest) (happend ▸ List.prefix_append _ rest')
    obtain rfl : a = b :=
      hprefix.elim (hapart a (hall a) b (hall b)) fun h => (hapart b (hall b) a (hall a) h).symm
    rw [List.append_cancel_left happend]

/-! ## Lists up to a mark -/

/-- Reads values up to a mark, which goes with them. -/
def readUntil (read : Text → Option (α × Text)) (mark : Char) : Text → Option (List α × Text)
  | [] => none
  | c :: r =>
    if c = mark then some ([], r)
    else match read (c :: r) with
      | none => none
      | some (a, rest) =>
        if _h : rest.length < (c :: r).length then
          (readUntil read mark rest).map fun found => (a :: found.1, found.2)
        else none
termination_by s => s.length
decreasing_by exact _h

theorem readUntil_mark (read : Text → Option (α × Text)) (mark : Char) (rest : Text) :
    readUntil read mark (mark :: rest) = some ([], rest) := by
  rw [readUntil, if_pos rfl]

theorem readUntil_cons (f : Format α) {mark : Char} {a : α} {c : Char} {r : Text} (ha : f.print a = c :: r)
    (hc : c ≠ mark) (s : Text) :
    readUntil f.read mark (f.print a ++ s) = (readUntil f.read mark s).map fun found => (a :: found.1, found.2) := by
  have hread := f.read_print a s
  rw [ha, List.cons_append] at hread ⊢
  have hlt : s.length < (c :: (r ++ s)).length := by
    rw [List.length_cons, List.length_append]
    omega
  rw [readUntil, if_neg hc]
  simp only [hread]
  rw [dif_pos hlt]

/-- Values up to a mark that starts none of them. -/
def many (f : Format α) (mark : Char) (h : ∀ a, ∃ c r, f.print a = c :: r ∧ c ≠ mark) : Format (List α) where
  print as := as.flatMap f.print ++ [mark]
  read := readUntil f.read mark
  read_print as rest := by
    induction as with
    | nil => exact readUntil_mark f.read mark rest
    | cons a as ih =>
      obtain ⟨c, r, ha, hc⟩ := h a
      rw [List.flatMap_cons, List.append_assoc, List.append_assoc, f.readUntil_cons ha hc, ← List.append_assoc, ih]
      rfl

end Format

/-! ## Numbers -/

theorem isDigit_of_mem_decimal {n : Nat} {c : Char} (h : c ∈ decimal n) : isDigit c = true :=
  Nat.isDigit_of_mem_toDigits (by decide) (by decide) h

theorem dropWhile_space_decimal (k n : Nat) (s : Text) :
    (List.replicate k ' ' ++ (decimal n ++ s)).dropWhile (· == ' ') = decimal n ++ s := by
  rw [List.dropWhile_append_of_pos (by simp)]
  cases h : decimal n with
  | nil => exact absurd h Nat.toDigits_ne_nil
  | cons c r =>
    have hc : isDigit c = true := isDigit_of_mem_decimal (h ▸ List.mem_cons_self)
    refine List.dropWhile_cons_of_neg ?_
    rintro heq
    rw [beq_iff_eq] at heq
    rw [heq] at hc
    cases hc

theorem takeWhile_decimal (n : Nat) {s : Text} (h : s.head?.any isDigit = false) :
    (decimal n ++ s).takeWhile isDigit = decimal n := by
  rw [List.takeWhile_append_of_pos fun c => isDigit_of_mem_decimal]
  cases s with
  | nil => rw [List.takeWhile_nil, List.append_nil]
  | cons c r => rw [List.takeWhile_cons_of_neg (by simpa using h), List.append_nil]

namespace Format

/-- A number in decimal, filled up with spaces on the left or on the right, and a mark behind it that is no digit. -/
def numeral (left right : Nat) (mark : Char) (hmark : isDigit mark = false) : Format Nat where
  print n := (decimal n).leftpad left ' ' ++ (List.replicate (right - (decimal n).length) ' ' ++ [mark])
  read s :=
    let digits := (s.dropWhile (· == ' ')).takeWhile isDigit
    (((s.dropWhile (· == ' ')).drop (max right digits.length)).dropPrefix? [mark]).map (Nat.ofDigitChars 10 digits 0, ·)
  read_print n rest := by
    generalize hspaces : List.replicate (right - (decimal n).length) ' ' = spaces
    have hskip : ((decimal n).leftpad left ' ' ++ (spaces ++ [mark]) ++ rest).dropWhile (· == ' ') =
        decimal n ++ (spaces ++ ([mark] ++ rest)) := by
      rw [List.leftpad, List.append_assoc, List.append_assoc, List.append_assoc, dropWhile_space_decimal]
    have hdigits : (decimal n ++ (spaces ++ ([mark] ++ rest))).takeWhile isDigit = decimal n := by
      refine takeWhile_decimal n ?_
      rw [← hspaces]
      cases right - (decimal n).length with
      | zero => exact hmark
      | succ k => rfl
    have hlength : (decimal n ++ spaces).length = max right (decimal n).length := by
      rw [← hspaces, List.length_append, List.length_replicate]
      omega
    simp only [hskip, hdigits]
    rw [← hlength, ← List.append_assoc, List.drop_left, dropPrefix?_append, decimal,
      Nat.ofDigitChars_toDigits (by decide) (by decide)]
    rfl

end Format

/-! ## Strings -/

/-- How a character stands in a string: behind a backslash a letter of its own or, `long` reading it, its code point;
or as it is. -/
inductive Escaped (short : List (Char × Char)) (long : Text → Option (Char × Text)) (c : Char) : Text → Prop
  | short {m : Char} : m ≠ 'u' → short.lookup m = some c → Escaped short long c ['\\', m]
  | long {s : Text} : (∀ rest, long (s ++ rest) = some (c, rest)) → Escaped short long c ('\\' :: 'u' :: s)
  | plain : c ≠ '\\' → c ≠ '"' → Escaped short long c [c]

def readChar (short : List (Char × Char)) (long : Text → Option (Char × Text)) : Text → Option (Char × Text)
  | [] => none
  | c :: r =>
    if c ≠ '\\' then some (c, r)
    else match r with
      | [] => none
      | m :: rest => if m = 'u' then long rest else (short.lookup m).map (·, rest)

section

variable {short : List (Char × Char)} {long : Text → Option (Char × Text)} {c : Char} {s : Text}

theorem Escaped.readChar_append (h : Escaped short long c s) (rest : Text) :
    readChar short long (s ++ rest) = some (c, rest) := by
  cases h with
  | short hm hlookup => exact (if_neg hm).trans (by rw [hlookup]; rfl)
  | long hlong => exact hlong rest
  | plain hc _ => exact if_pos hc

theorem Escaped.head (h : Escaped short long c s) : ∃ d r, s = d :: r ∧ d ≠ '"' := by
  cases h with
  | short => exact ⟨_, _, rfl, by decide⟩
  | long => exact ⟨_, _, rfl, by decide⟩
  | plain _ hc => exact ⟨c, [], rfl, hc⟩

end

def Format.string (short : List (Char × Char)) (long : Text → Option (Char × Text)) (print : Char → Text)
    (h : ∀ c, Escaped short long c (print c)) : Format Text :=
  (Format.many ⟨print, readChar short long, fun c => (h c).readChar_append⟩ '"' fun c => (h c).head).behind "\""

def readBraced : Text → Option (Char × Text)
  | '\x7b' :: r =>
    ((r.dropWhile (· != '\x7d')).dropPrefix? ['\x7d']).map fun rest =>
      (Char.ofNat (hexValue ((r.takeWhile (· != '\x7d')).map Char.toUpper)), rest)
  | _ => none

theorem readBraced_append (c : Char) (rest : Text) :
    readBraced ('\x7b' :: (hexadecimal c.toNat ++ ['\x7d']) ++ rest) = some (c, rest) := by
  have hdigits : ∀ d ∈ hexadecimal c.toNat, (d != '\x7d') = true := by
    intro d hd
    rw [bne_iff_ne]
    rintro rfl
    exact absurd (isHexDigit_of_mem_hexadecimal hd) (by decide)
  have hdrop : (['\x7d'] ++ rest).dropWhile (· != '\x7d') = ['\x7d'] ++ rest :=
    List.dropWhile_cons_of_neg (by decide)
  have htake : (['\x7d'] ++ rest).takeWhile (· != '\x7d') = [] := List.takeWhile_cons_of_neg (by decide)
  show readBraced ('\x7b' :: ((hexadecimal c.toNat ++ ['\x7d']) ++ rest)) = _
  rw [List.append_assoc, readBraced, List.dropWhile_append_of_pos hdigits, List.takeWhile_append_of_pos hdigits, hdrop,
    htake, List.append_nil, dropPrefix?_append, hexValue_hexadecimal, Char.ofNat_toNat]
  rfl

/-- The letters that stand for characters behind a backslash, and those characters. -/
def quotedLetters : List (Char × Char) :=
  [('"', '"'), ('\\', '\\'), ('0', '\x00'), ('t', '\t'), ('n', '\n'), ('r', '\r')]

theorem escaped_quotedChar (c : Char) : Escaped quotedLetters readBraced c (quotedChar c) := by
  unfold quotedChar
  split
  · exact .short (by decide) rfl
  · exact .short (by decide) rfl
  · exact .short (by decide) rfl
  · exact .short (by decide) rfl
  · exact .short (by decide) rfl
  · exact .short (by decide) rfl
  · rename_i hquote hbackslash _ _ _ _
    split
    · exact .plain hbackslash hquote
    · exact .long (readBraced_append c)

def quotedFormat : Format Text := .string quotedLetters readBraced quotedChar escaped_quotedChar

theorem quotedFormat_print (s : Text) : quotedFormat.print s = quoted s := rfl

def readFour (s : Text) : Option (Char × Text) :=
  if s.length < 4 then none else some (Char.ofNat (hexValue ((s.take 4).map Char.toUpper)), s.drop 4)

theorem readFour_append {c : Char} (hc : c.toNat < 0x20) (rest : Text) :
    readFour ((hexadecimal c.toNat).leftpad 4 '0' ++ rest) = some (c, rest) := by
  have hlength : ((hexadecimal c.toNat).leftpad 4 '0').length = 4 := by
    have hshort : ∀ n < 0x20, (hexadecimal n).length ≤ 4 := by decide
    rw [List.length_leftpad]
    exact Nat.max_eq_left (hshort c.toNat hc)
  have hupper : ((hexadecimal c.toNat).leftpad 4 '0').map Char.toUpper =
      ((hexadecimal c.toNat).map Char.toUpper).leftpad 4 '0' := by
    rw [List.leftpad, List.leftpad, List.map_append, List.map_replicate, List.length_map]
    rfl
  rw [readFour, if_neg (by rw [List.length_append]; omega), List.take_append_of_le_length (by omega),
    List.take_of_length_le (by omega), List.drop_append_of_le_length (by omega), List.drop_of_length_le (by omega),
    hupper, hexValue_leftpad, hexValue_hexadecimal, Char.ofNat_toNat]
  rfl

def jsonLetters : List (Char × Char) :=
  [('"', '"'), ('\\', '\\'), ('b', '\x08'), ('f', '\x0c'), ('n', '\n'), ('r', '\r'), ('t', '\t')]

theorem escaped_jsonChar (c : Char) : Escaped jsonLetters readFour c (Command.jsonChar c) := by
  unfold Command.jsonChar
  split
  · exact .short (by decide) rfl
  · exact .short (by decide) rfl
  · exact .short (by decide) rfl
  · exact .short (by decide) rfl
  · exact .short (by decide) rfl
  · exact .short (by decide) rfl
  · exact .short (by decide) rfl
  · rename_i hquote hbackslash _ _ _ _ _
    split
    · exact .long (readFour_append ‹_›)
    · exact .plain hbackslash hquote

def jsonStringFormat : Format Text := .string jsonLetters readFour Command.jsonChar escaped_jsonChar

theorem jsonStringFormat_print (s : Text) : jsonStringFormat.print s = Command.jsonString s := rfl

/-! ## Line ends -/

theorem newline_notMem_decimal (n : Nat) : '\n' ∉ decimal n := by
  intro h
  exact absurd (isDigit_of_mem_decimal h) (by decide)

theorem newline_notMem_quotedChar (c : Char) : '\n' ∉ quotedChar c := by
  unfold quotedChar
  split
  · decide
  · decide
  · decide
  · decide
  · decide
  · decide
  · rename_i hnewline _
    split
    · exact fun h => hnewline (List.mem_singleton.mp h).symm
    · rw [List.mem_append, List.mem_append]
      rintro ((h | h) | h)
      · exact absurd h (by decide)
      · exact absurd (isHexDigit_of_mem_hexadecimal h) (by decide)
      · exact absurd h (by decide)

theorem newline_notMem_quoted (s : Text) : '\n' ∉ quoted s := by
  rw [quoted, List.mem_append, List.mem_append, List.mem_flatMap]
  rintro ((h | ⟨c, -, h⟩) | h)
  · exact absurd h (by decide)
  · exact newline_notMem_quotedChar c h
  · exact absurd h (by decide)

end CssLexer
