/-
  CssLexer.Proofs.Numerals — numerals read back.

  Proved: the hexadecimal digits of a number have its value, in either case and behind any zeros
  (`hexValue_map_hexadecimal`, `hexValue_zeros`), so a cited code point tells the character (`codePoint_injective`).
-/

import CssLexer.Text

namespace CssLexer

theorem hexValue_concat (digits : Text) (c : Char) : hexValue (digits ++ [c]) = 16 * hexValue digits + hexDigitValue c := by
  rw [hexValue, List.foldl_append]
  rfl

/-- The digits of a number have its value in any writing that keeps the value of each digit. -/
theorem hexValue_map_hexadecimal {f : Char → Char} (hf : ∀ n < 16, hexDigitValue (f n.digitChar) = n) (n : Nat) :
    hexValue ((hexadecimal n).map f) = n := by
  induction n using Nat.strongRecOn with
  | _ n ih =>
    rw [hexadecimal, Nat.toDigits_eq_if (by decide)]
    split
    · rename_i hn
      simpa [hexValue] using hf n hn
    · rename_i hn
      have hrest : hexValue ((hexadecimal (n / 16)).map f) = n / 16 := ih (n / 16) (by omega)
      have hlast : hexDigitValue (f (n % 16).digitChar) = n % 16 := hf (n % 16) (by omega)
      rw [List.map_append, List.map_singleton, hexValue_concat, hlast]
      rw [hexadecimal] at hrest
      omega

theorem hexValue_hexadecimal (n : Nat) : hexValue ((hexadecimal n).map Char.toUpper) = n :=
  hexValue_map_hexadecimal (by decide) n

theorem hexValue_zeros (k : Nat) (digits : Text) : hexValue (List.replicate k '0' ++ digits) = hexValue digits := by
  have hzeros : (List.replicate k '0').foldl (fun n c => 16 * n + hexDigitValue c) 0 = 0 := by
    induction k with
    | zero => rfl
    | succ k ih =>
      rw [List.replicate_succ, List.foldl_cons]
      exact ih
  rw [hexValue, List.foldl_append, hzeros]
  rfl

theorem hexValue_leftpad (n : Nat) (digits : Text) : hexValue (digits.leftpad n '0') = hexValue digits :=
  hexValue_zeros (n - digits.length) digits

theorem isHexDigit_of_mem_hexadecimal {n : Nat} {c : Char} (h : c ∈ hexadecimal n) : isHexDigit c = true := by
  have hdigit (d : Nat) (hd : d < 16) : isHexDigit d.digitChar = true := by
    revert d
    decide
  induction n using Nat.strongRecOn with
  | _ n ih =>
    rw [hexadecimal, Nat.toDigits_eq_if (by decide)] at h
    split at h
    · rw [List.mem_singleton.mp h]
      exact hdigit n ‹_›
    · rcases List.mem_append.mp h with h | h
      · exact ih (n / 16) (by omega) h
      · rw [List.mem_singleton.mp h]
        exact hdigit (n % 16) (by omega)

theorem codePoint_injective {c d : Char} (h : codePoint c = codePoint d) : c = d := by
  have hdigits := congrArg hexValue (List.append_cancel_left h)
  rw [hexValue_leftpad, hexValue_leftpad, hexValue_hexadecimal, hexValue_hexadecimal] at hdigits
  exact Char.toNat_inj.mp hdigits

end CssLexer
