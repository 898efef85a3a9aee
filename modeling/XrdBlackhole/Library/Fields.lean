import XrdBlackhole.Library.PrintfInt
import XrdBlackhole.Library.Components

/-!
# Numbers and fields of text lines

A printed integer reads back as itself, and so does a fraction with two places. The
fields of a line are read from its end, so that only the text in front of them may
contain blanks.
-/

namespace Fields
open Digits

def number (s : List Char) : ℤ := Printf.signedValue s

theorem toList_toString (n : ℤ) :
    (toString n).toList = (if n < 0 then ['-'] else []) ++ Nat.toDigits 10 n.natAbs := by
  cases n with
  | ofNat n =>
    have hnonneg : ¬ Int.ofNat n < 0 := not_lt.mpr (Int.natCast_nonneg n)
    rw [if_neg hnonneg]
    exact Nat.toList_repr
  | negSucc n =>
    rw [if_pos (Int.negSucc_lt_zero n)]
    have htext : toString (Int.negSucc n) = "-" ++ (n + 1).repr := rfl
    rw [htext, String.toList_append, Nat.toList_repr]
    rfl

theorem mem_toString {c : Char} {n : ℤ} (h : c ∈ (toString n).toList) : c = '-' ∨ c.isDigit := by
  rw [toList_toString, List.mem_append] at h
  rcases h with hsign | hdigit
  · split_ifs at hsign
    · exact .inl (List.mem_singleton.mp hsign)
    · exact absurd hsign List.not_mem_nil
  · exact .inr (Nat.isDigit_of_mem_toDigits (by norm_num) (by norm_num) hdigit)

theorem number_toString (n : ℤ) : number (toString n).toList = n := by
  have hdigits : ∀ c ∈ Nat.toDigits 10 n.natAbs, c.isDigit :=
    fun c => Nat.isDigit_of_mem_toDigits (by norm_num) (by norm_num)
  rw [toList_toString, number]
  split_ifs with hneg
  · rw [List.singleton_append, Printf.signedValue, decimalValue_toDigits]
    omega
  · rw [List.nil_append, Printf.signedValue_digits hdigits, decimalValue_toDigits]
    omega

def hundredths (n : ℕ) : List Char :=
  Nat.toDigits 10 (n / 100) ++ ['.', Nat.digitChar (n / 10 % 10), Nat.digitChar (n % 10)]

theorem isDigit_digitChar {n : ℕ} (h : n < 10) : (Nat.digitChar n).isDigit := by
  have hmem : Nat.digitChar n ∈ Nat.toDigits 10 n := by
    rw [Nat.toDigits_of_lt_base h]
    exact List.mem_singleton_self _
  exact Nat.isDigit_of_mem_toDigits (by norm_num) (by norm_num) hmem

theorem mem_hundredths {c : Char} {n : ℕ} (h : c ∈ hundredths n) : c = '.' ∨ c.isDigit := by
  simp only [hundredths, List.mem_append, List.mem_cons, List.not_mem_nil, or_false] at h
  rcases h with hwhole | hpoint | htenth | hcent
  · exact .inr (Nat.isDigit_of_mem_toDigits (by norm_num) (by norm_num) hwhole)
  · exact .inl hpoint
  · exact .inr (htenth ▸ isDigit_digitChar (Nat.mod_lt _ (by norm_num)))
  · exact .inr (hcent ▸ isDigit_digitChar (Nat.mod_lt _ (by norm_num)))

def fieldsText (fields : List (List Char × List Char)) : List Char :=
  fields.flatMap fun field => ' ' :: field.1 ++ '=' :: field.2

def lastField (key line : List Char) : Option (List Char × List Char) :=
  let word := (line.reverse.takeWhile (· ≠ ' ')).reverse
  match line.reverse.dropWhile (· ≠ ' ') with
  | [] => none
  | _ :: rest =>
    if (key ++ ['=']).isPrefixOf word then some (rest.reverse, word.drop (key.length + 1))
    else none

/-- The text in front and the values, for the keys from the end of the line. -/
def lastFields : List (List Char) → List Char → Option (List Char × List (List Char))
  | [], line => some (line, [])
  | key :: keys, line =>
    (lastField key line).bind fun r => (lastFields keys r.1).map fun s => (s.1, r.2 :: s.2)

theorem lastField_append {key value : List Char} (hkey : ' ' ∉ key) (hvalue : ' ' ∉ value)
    (line : List Char) :
    lastField key (line ++ ' ' :: key ++ '=' :: value) = some (line, value) := by
  have hword : ∀ c ∈ (key ++ '=' :: value).reverse, decide (c ≠ ' ') := by
    intro c hc
    refine decide_eq_true fun heq => ?_
    simp only [List.mem_reverse, List.mem_append, List.mem_cons, heq] at hc
    rcases hc with hc | hc | hc
    · exact hkey hc
    · exact absurd hc (by decide)
    · exact hvalue hc
  have hrev : (line ++ ' ' :: key ++ '=' :: value).reverse =
      (key ++ '=' :: value).reverse ++ ' ' :: line.reverse := by simp
  have hhead : ∀ c, (' ' :: line.reverse).head? = some c → ¬ decide (c ≠ ' ') = true := by
    intro c hc
    simp [← Option.some.inj hc]
  have hkeyed : (key ++ ['=']).isPrefixOf (key ++ '=' :: value) := by simp
  simp only [lastField, hrev, takeWhile_append hword hhead, dropWhile_append hword hhead,
    List.reverse_reverse, hkeyed, if_true]
  simp

/-- Fields without blanks read back, whatever text stands in front of them. -/
theorem lastFields_fieldsText {fields : List (List Char × List Char)}
    (hfields : ∀ field ∈ fields, ' ' ∉ field.1 ∧ ' ' ∉ field.2) (line : List Char) :
    lastFields (fields.reverse.map Prod.fst) (line ++ fieldsText fields) =
      some (line, fields.reverse.map Prod.snd) := by
  induction fields using List.reverseRecOn with
  | nil => simp [lastFields, fieldsText]
  | append_singleton fields field ih =>
    obtain ⟨hkey, hvalue⟩ := hfields field (List.mem_append_right _ (List.mem_singleton_self _))
    have hline : line ++ fieldsText (fields ++ [field]) =
        (line ++ fieldsText fields) ++ ' ' :: field.1 ++ '=' :: field.2 := by
      simp [fieldsText, List.flatMap_append]
    rw [List.reverse_append, List.reverse_singleton, List.singleton_append, List.map_cons,
      List.map_cons, lastFields, hline, lastField_append hkey hvalue, Option.bind_some,
      ih fun f hf => hfields f (List.mem_append_left _ hf)]
    rfl

end Fields
