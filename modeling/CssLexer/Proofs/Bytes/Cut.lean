/-
  CssLexer.Proofs.Bytes.Cut — texts by bytes: cuts that can miss, and counts of leading bytes.

  A cut at a count of bytes misses where the count runs past the end of the text or ends inside a character.
  `bytesIn s k` is the size of the first `k` characters of `s`, so a count that adds up over characters never misses.

  Proved:
  - `charsIn?_eq_some_iff`, `cut_eq_ok_iff`: a cut succeeds exactly behind a whole number of characters.
  - `behind_bytesIn`, `drop_utf8_bytesIn`: behind the size of `k` characters is the text without them, as a text and in
    bytes.
  - `countBytes_utf8`, `bytesIn_countUpTo`, `any_getElem?_bytesIn`: leading bytes of an ASCII class are leading
    characters of that class, one byte each, and a single byte is looked up as the character there.
-/

import CssLexer.Proofs.Ascii

namespace CssLexer

/-- What goes wrong where lengths are handled as bare numbers. -/
inductive Misstep where
  /-- A cut behind the end of a text. -/
  | pastEnd
  /-- A cut between the bytes of one character. -/
  | insideCharacter
  /-- A difference below zero. -/
  | belowZero
  deriving DecidableEq, Repr

@[simp] theorem ok_bind {α β : Type} (a : α) (f : α → Except Misstep β) : (Except.ok a >>= f) = f a := rfl

theorem bind_eq_ok_iff {α β : Type} {x : Except Misstep α} {f : α → Except Misstep β} {b : β} :
    (x >>= f) = .ok b ↔ ∃ a, x = .ok a ∧ f a = .ok b := by
  cases x with
  | error e => exact ⟨fun h => (nomatch h), fun ⟨_, h, _⟩ => (nomatch h)⟩
  | ok a => exact ⟨fun h => ⟨a, rfl, h⟩, fun ⟨_, h, h'⟩ => by cases h; exact h'⟩

namespace Text

def cut (s : Text) (n : Nat) : Except Misstep (Text × Text) :=
  match s.charsIn? n with
  | some k => .ok (s.take k, s.drop k)
  | none => .error (if s.byteLength < n then .pastEnd else .insideCharacter)

def behind (s : Text) (n : Nat) : Except Misstep Text := (s.cut n).map Prod.snd

/-- The number of bytes of the first `k` characters of a text. -/
def bytesIn (s : Text) (k : Nat) : Nat := byteLength (s.take k)

def utf8 (s : Text) : List UInt8 := s.flatMap String.utf8EncodeChar

/-! ## Lengths -/

theorem length_le_byteLength (s : Text) : s.length ≤ s.byteLength := by
  induction s with
  | nil => exact Nat.le_refl _
  | cons c s ih =>
    have := c.utf8Size_pos
    rw [byteLength_cons, List.length_cons]
    omega

@[simp] theorem bytesIn_zero (s : Text) : s.bytesIn 0 = 0 := rfl

theorem bytesIn_cons (c : Char) (s : Text) (k : Nat) : bytesIn (c :: s) (1 + k) = c.utf8Size + bytesIn s k := by
  rw [bytesIn, Nat.add_comm, List.take_succ_cons, byteLength_cons, bytesIn]

theorem bytesIn_cons_one (c : Char) (s : Text) : bytesIn (c :: s) 1 = c.utf8Size := bytesIn_cons c s 0

theorem bytesIn_add (s : Text) (m n : Nat) : s.bytesIn (m + n) = s.bytesIn m + bytesIn (s.drop m) n := by
  rw [bytesIn, List.take_add, byteLength_append, bytesIn, bytesIn]

theorem bytesIn_of_length_le {s : Text} {k : Nat} (h : s.length ≤ k) : s.bytesIn k = s.byteLength := by
  rw [bytesIn, List.take_of_length_le h]

theorem byteLength_eq_bytesIn_add (s : Text) (k : Nat) : s.byteLength = s.bytesIn k + byteLength (s.drop k) := by
  rw [bytesIn, ← byteLength_append, List.take_append_drop]

theorem bytesIn_le (s : Text) (k : Nat) : s.bytesIn k ≤ s.byteLength := by
  rw [s.byteLength_eq_bytesIn_add k]
  exact Nat.le_add_right _ _

theorem bytesIn_mono (s : Text) {m n : Nat} (h : m ≤ n) : s.bytesIn m ≤ s.bytesIn n := by
  rw [← Nat.add_sub_cancel' h, bytesIn_add]
  exact Nat.le_add_right _ _

theorem le_bytesIn {s : Text} {k : Nat} (h : k ≤ s.length) : k ≤ s.bytesIn k := by
  have := length_le_byteLength (s.take k)
  rwa [List.length_take, Nat.min_eq_left h] at this

theorem utf8Size_of_ascii {c : Char} (h : isNonascii c = false) : c.utf8Size = 1 := by
  rw [Char.utf8Size_eq_one_iff, UInt32.le_iff_toNat_le]
  have : ¬ 128 ≤ c.toNat := fun hc => by rw [isNonascii_iff.mpr hc] at h; cases h
  show c.toNat ≤ 127
  omega

theorem byteLength_of_ascii {s : Text} (h : ∀ c ∈ s, isNonascii c = false) : byteLength s = s.length := by
  induction s with
  | nil => rfl
  | cons c s ih =>
    rw [byteLength_cons, utf8Size_of_ascii (h c List.mem_cons_self), ih fun d hd => h d (List.mem_cons_of_mem _ hd),
      List.length_cons, Nat.add_comm]

/-! ## Cuts -/

theorem charsIn?_go_append (a b : Text) (n : Nat) : charsIn?.go (a ++ b) a.byteLength n = some (n + a.length) := by
  induction a generalizing n with
  | nil => cases b <;> rfl
  | cons c a ih =>
    have hpos := c.utf8Size_pos
    obtain ⟨m, hm⟩ : ∃ m, c.utf8Size + byteLength a = m + 1 := ⟨c.utf8Size + byteLength a - 1, by omega⟩
    rw [byteLength_cons, hm, List.cons_append, charsIn?.go, if_pos (by omega), ← hm, Nat.add_sub_cancel_left, ih,
      List.length_cons, Nat.add_assoc, Nat.add_comm 1]

theorem charsIn?_append (a b : Text) : charsIn? (a ++ b) a.byteLength = some a.length := by
  rw [charsIn?, charsIn?_go_append, Nat.zero_add]

theorem charsIn?_go_some {s : Text} {bytes n k : Nat} (h : charsIn?.go s bytes n = some k) :
    n ≤ k ∧ k - n ≤ s.length ∧ byteLength (s.take (k - n)) = bytes := by
  induction s generalizing bytes n with
  | nil =>
    cases bytes with
    | zero => cases h; simp
    | succ b => cases h
  | cons c s ih =>
    cases bytes with
    | zero => cases h; simp
    | succ b =>
      rw [charsIn?.go] at h
      split at h
      · rename_i hle
        obtain ⟨h1, h2, h3⟩ := ih h
        obtain ⟨j, rfl⟩ : ∃ j, k = n + 1 + j := ⟨k - (n + 1), by omega⟩
        rw [show n + 1 + j - (n + 1) = j by omega] at h2 h3
        rw [show n + 1 + j - n = j + 1 by omega]
        refine ⟨by omega, by rw [List.length_cons]; omega, ?_⟩
        rw [List.take_succ_cons, byteLength_cons, h3]
        omega
      · cases h

theorem charsIn?_eq_some_iff {s : Text} {n k : Nat} : charsIn? s n = some k ↔ k ≤ s.length ∧ s.bytesIn k = n := by
  constructor
  · intro h
    obtain ⟨-, hk, hbytes⟩ := charsIn?_go_some h
    rw [Nat.sub_zero] at hk hbytes
    exact ⟨hk, hbytes⟩
  · rintro ⟨hk, rfl⟩
    have := charsIn?_append (s.take k) (s.drop k)
    rwa [List.take_append_drop, List.length_take, Nat.min_eq_left hk] at this

theorem cut_append (a b : Text) : cut (a ++ b) a.byteLength = .ok (a, b) := by
  rw [cut, charsIn?_append]
  simp only [List.take_left, List.drop_left]

theorem behind_append (a b : Text) : behind (a ++ b) a.byteLength = .ok b := by rw [behind, cut_append]; rfl

@[simp] theorem behind_zero (s : Text) : behind s 0 = .ok s := behind_append [] s

theorem cut_bytesIn (s : Text) (k : Nat) : s.cut (s.bytesIn k) = .ok (s.take k, s.drop k) := by
  have := cut_append (s.take k) (s.drop k)
  rwa [List.take_append_drop] at this

theorem behind_bytesIn (s : Text) (k : Nat) : s.behind (s.bytesIn k) = .ok (s.drop k) := by
  rw [behind, cut_bytesIn]
  rfl

theorem cut_eq_ok_iff {s a b : Text} {n : Nat} : cut s n = .ok (a, b) ↔ s = a ++ b ∧ a.byteLength = n := by
  constructor
  · intro h
    rw [cut] at h
    split at h
    · rename_i k hk
      cases h
      exact ⟨(List.take_append_drop _ _).symm, (charsIn?_eq_some_iff.mp hk).2⟩
    · cases h
  · rintro ⟨rfl, rfl⟩
    exact cut_append a b

theorem behind_eq_ok_iff {s b : Text} {n : Nat} : behind s n = .ok b ↔ ∃ a, s = a ++ b ∧ a.byteLength = n := by
  rw [behind]
  constructor
  · intro h
    cases hc : cut s n with
    | error e => rw [hc] at h; cases h
    | ok parts =>
      obtain ⟨a, r⟩ := parts
      rw [hc] at h
      cases h
      exact ⟨a, cut_eq_ok_iff.mp hc⟩
  · rintro ⟨a, rfl, rfl⟩
    rw [cut_append]
    rfl

example : behind ['é', 'x'] 1 = .error .insideCharacter ∧ behind ['é', 'x'] 2 = .ok ['x'] ∧
    behind ['é', 'x'] 4 = .error .pastEnd := ⟨rfl, rfl, rfl⟩

/-! ## Bytes -/

@[simp] theorem utf8_cons (c : Char) (s : Text) : utf8 (c :: s) = String.utf8EncodeChar c ++ utf8 s := rfl

@[simp] theorem utf8_append (s t : Text) : utf8 (s ++ t) = utf8 s ++ utf8 t := List.flatMap_append

@[simp] theorem length_utf8 (s : Text) : (utf8 s).length = byteLength s := by
  induction s with
  | nil => rfl
  | cons c s ih => rw [utf8_cons, List.length_append, String.length_utf8EncodeChar, ih, byteLength_cons]

theorem drop_utf8_bytesIn (s : Text) (k : Nat) : s.utf8.drop (s.bytesIn k) = utf8 (s.drop k) := by
  have h : s.utf8 = utf8 (s.take k) ++ utf8 (s.drop k) := by rw [← utf8_append, List.take_append_drop]
  rw [h, bytesIn, ← length_utf8, List.drop_left]

theorem encode_of_ascii {c : Char} (h : isNonascii c = false) :
    String.utf8EncodeChar c = [UInt8.ofNat c.toNat] := by
  rw [String.utf8EncodeChar_eq_singleton (utf8Size_of_ascii h)]
  rfl

theorem encode_of_nonascii {c : Char} (h : isNonascii c = true) :
    ∃ b bs, String.utf8EncodeChar c = b :: bs ∧ 128 ≤ b.toNat := by
  have hc : 128 ≤ c.toNat := isNonascii_iff.mp h
  have hval : c.val.toNat = c.toNat := rfl
  unfold String.utf8EncodeChar
  simp only [hval]
  split
  · omega
  · split
    · exact ⟨_, _, rfl, by simp; omega⟩
    · split
      · exact ⟨_, _, rfl, by simp; omega⟩
      · exact ⟨_, _, rfl, by simp; omega⟩

/-- Whether a byte is an ASCII character of class `p`. -/
def byteIs (p : Char → Bool) (b : UInt8) : Bool := b.toNat < 128 && p (Char.ofNat b.toNat)

theorem byteIs_of_ascii (p : Char → Bool) {c : Char} (h : isNonascii c = false) :
    byteIs p (UInt8.ofNat c.toNat) = p c := by
  have hlt : c.toNat < 128 := by simpa [isNonascii] using h
  have hb : (UInt8.ofNat c.toNat).toNat = c.toNat := by
    rw [UInt8.toNat_ofNat']
    omega
  rw [byteIs, hb, Char.ofNat_toNat]
  simp [hlt]

def countBytes (p : Char → Bool) (bytes : List UInt8) : Nat := (bytes.takeWhile (byteIs p)).length

/-- A class of ASCII characters alone. -/
def IsAscii (p : Char → Bool) : Prop := ∀ c, isNonascii c = true → p c = false

theorem countBytes_utf8 {p : Char → Bool} (hp : IsAscii p) (s : Text) : countBytes p (utf8 s) = countWhile p s := by
  induction s with
  | nil => rfl
  | cons c s ih =>
    unfold countBytes countWhile at ih ⊢
    rw [utf8_cons]
    cases hc : isNonascii c with
    | false =>
      rw [encode_of_ascii hc, List.singleton_append, List.takeWhile_cons, List.takeWhile_cons, byteIs_of_ascii p hc]
      split
      · rw [List.length_cons, List.length_cons, ih]
      · rfl
    | true =>
      obtain ⟨b, bs, hb, hlt⟩ := encode_of_nonascii hc
      have hnot : byteIs p b = false := by simp [byteIs]; omega
      rw [hb, List.cons_append, List.takeWhile_cons, List.takeWhile_cons, hnot, hp c hc]
      rfl

theorem length_takeWhile_take {α : Type} (p : α → Bool) (n : Nat) (l : List α) :
    ((l.take n).takeWhile p).length = min n (l.takeWhile p).length := by
  induction l generalizing n with
  | nil => simp
  | cons a l ih =>
    cases n with
    | zero => simp
    | succ n =>
      rw [List.take_succ_cons, List.takeWhile_cons, List.takeWhile_cons]
      split
      · rw [List.length_cons, List.length_cons, ih]
        omega
      · simp

theorem countBytes_take_utf8 {p : Char → Bool} (hp : IsAscii p) (n : Nat) (s : Text) :
    countBytes p ((utf8 s).take n) = countUpTo n p s := by
  have h := countBytes_utf8 hp s
  unfold countBytes countWhile at h
  rw [countBytes, countUpTo, countWhile, length_takeWhile_take, length_takeWhile_take, h]

theorem isNonascii_of_mem_takeWhile {p : Char → Bool} (hp : IsAscii p) {s : Text} {c : Char}
    (hc : c ∈ s.takeWhile p) : isNonascii c = false := by
  cases hn : isNonascii c with
  | false => rfl
  | true =>
    have := List.all_eq_true.mp List.all_takeWhile c hc
    rw [hp c hn] at this
    cases this

theorem bytesIn_countUpTo {p : Char → Bool} (hp : IsAscii p) (n : Nat) (s : Text) :
    s.bytesIn (countUpTo n p s) = countUpTo n p s := by
  have hprefix : (s.take n).takeWhile p <+: s := (List.takeWhile_prefix p).trans (List.take_prefix n s)
  have htake : s.take (countUpTo n p s) = (s.take n).takeWhile p := (List.prefix_iff_eq_take.mp hprefix).symm
  rw [bytesIn, htake]
  exact byteLength_of_ascii fun c hc => isNonascii_of_mem_takeWhile hp hc

theorem countUpTo_length (p : Char → Bool) (s : Text) : countUpTo s.length p s = countWhile p s := by
  rw [countUpTo, List.take_length]

theorem bytesIn_countWhile {p : Char → Bool} (hp : IsAscii p) (s : Text) :
    s.bytesIn (countWhile p s) = countWhile p s := by
  rw [← countUpTo_length, bytesIn_countUpTo hp]

theorem bytesIn_one {c : Char} (h : isNonascii c = false) (r : Text) : bytesIn (c :: r) 1 = 1 := by
  rw [bytesIn_cons_one, utf8Size_of_ascii h]

/-! ## Single bytes -/

theorem any_head?_utf8 {p : Char → Bool} (hp : IsAscii p) (s : Text) :
    s.utf8.head?.any (byteIs p) = s.head?.any p := by
  cases s with
  | nil => rfl
  | cons c s =>
    rw [utf8_cons]
    cases hc : isNonascii c with
    | false =>
      rw [encode_of_ascii hc]
      exact byteIs_of_ascii p hc
    | true =>
      obtain ⟨b, bs, hb, hlt⟩ := encode_of_nonascii hc
      rw [hb]
      show byteIs p b = p c
      rw [hp c hc]
      simp [byteIs]
      omega

/-- A byte behind a whole number of characters is looked up as the character there. -/
theorem any_getElem?_bytesIn {p : Char → Bool} (hp : IsAscii p) (s : Text) (k : Nat) :
    s.utf8[s.bytesIn k]?.any (byteIs p) = (s.drop k).head?.any p := by
  rw [← List.head?_drop, drop_utf8_bytesIn, any_head?_utf8 hp]

theorem any_two_utf8 {p q : Char → Bool} (hp : IsAscii p) (hq : IsAscii q) (s : Text) :
    (s.utf8[0]?.any (byteIs p) && s.utf8[1]?.any (byteIs q)) = (s.head?.any p && s.tail.head?.any q) := by
  have hfirst := any_getElem?_bytesIn hp s 0
  rw [bytesIn_zero, List.drop_zero] at hfirst
  rw [hfirst]
  cases s with
  | nil => rfl
  | cons c r =>
    cases hc : isNonascii c with
    | true =>
      rw [List.head?_cons, Option.any_some, hp c hc]
      rfl
    | false =>
      have hsecond := any_getElem?_bytesIn hq (c :: r) 1
      rw [bytesIn_one hc] at hsecond
      rw [hsecond]
      rfl

end Text

end CssLexer
