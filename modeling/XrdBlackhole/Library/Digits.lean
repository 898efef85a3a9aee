import Mathlib.Tactic

/-!
# Decimal digits in character lists

The value of a list of digits, its inverse, and the maximal munch of a class of
characters: what `takeWhile` and `dropWhile` do when the class ends where the rest
begins.
-/

namespace Digits

def decimalValue (digits : List Char) : ℕ := Nat.ofDigitChars 10 digits 0

theorem isDigit_iff (c : Char) : c.isDigit ↔ 48 ≤ c.toNat ∧ c.toNat ≤ 57 := by
  simp only [Char.isDigit, Bool.and_eq_true, decide_eq_true_eq, ge_iff_le,
    UInt32.le_iff_toNat_le]
  rfl

theorem decimalValue_toDigits (n : ℕ) : decimalValue (Nat.toDigits 10 n) = n :=
  Nat.ofDigitChars_ten_toDigits

theorem decimalValue_zeros (k : ℕ) (digits : List Char) :
    decimalValue (List.replicate k '0' ++ digits) = decimalValue digits := by
  rw [decimalValue, Nat.ofDigitChars_append, Nat.ofDigitChars_replicate_zero, Nat.mul_zero]
  rfl

theorem dropWhile_of_head {p : Char → Bool} {s : List Char} (h : ∀ c, s.head? = some c → ¬ p c) :
    s.dropWhile p = s := by
  cases s with
  | nil => rfl
  | cons c s => exact List.dropWhile_cons_of_neg (h c rfl)

theorem takeWhile_of_head {p : Char → Bool} {s : List Char} (h : ∀ c, s.head? = some c → ¬ p c) :
    s.takeWhile p = [] := by
  cases s with
  | nil => rfl
  | cons c s => exact List.takeWhile_cons_of_neg (h c rfl)

theorem head?_dropWhile {p : Char → Bool} {s : List Char} {c : Char}
    (h : (s.dropWhile p).head? = some c) : ¬ p c := by
  have hhead := List.head?_dropWhile_not p s
  rw [h] at hhead
  simpa using hhead

section
variable {p : Char → Bool} {s rest : List Char}

theorem takeWhile_append (hs : ∀ c ∈ s, p c) (hrest : ∀ c, rest.head? = some c → ¬ p c) :
    (s ++ rest).takeWhile p = s := by
  rw [List.takeWhile_append_of_pos hs, takeWhile_of_head hrest, List.append_nil]

theorem takeWhile_eq_self (hs : ∀ c ∈ s, p c) : s.takeWhile p = s := by
  rw [← s.append_nil, takeWhile_append hs (by simp), s.append_nil]

theorem dropWhile_append (hs : ∀ c ∈ s, p c) (hrest : ∀ c, rest.head? = some c → ¬ p c) :
    (s ++ rest).dropWhile p = rest := by
  rw [List.dropWhile_append_of_pos hs, dropWhile_of_head hrest]

theorem of_mem_takeWhile {c : Char} (h : c ∈ s.takeWhile p) : p c :=
  List.all_eq_true.mp List.all_takeWhile c h

end

end Digits
