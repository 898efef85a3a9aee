import XrdBlackhole.Library.Digits

/-!
# The C function `strtoull` in base ten

Blanks and one sign are skipped, then digits are read as far as they go. A value
above the range is clamped and reported as `ERANGE`, a minus sign negates the
value modulo `2 ^ 64`, and `endp` is the rest of the string. Without any digit
`endp` is the string itself.
-/

namespace Strtoull
open Digits

def isSpace (c : Char) : Bool := c = ' ' ∨ 9 ≤ c.toNat ∧ c.toNat ≤ 13

structure Result where
  value : BitVec 64
  erange : Bool
  endp : List Char
  deriving DecidableEq

def unsign : List Char → Bool × List Char
  | '+' :: s => (false, s)
  | '-' :: s => (true, s)
  | s => (false, s)

def strtoull (s : List Char) : Result :=
  let t := unsign (s.dropWhile isSpace)
  let digits := t.2.takeWhile Char.isDigit
  let endp := t.2.dropWhile Char.isDigit
  if digits = [] then ⟨0, false, s⟩
  else if 2 ^ 64 ≤ decimalValue digits then ⟨BitVec.allOnes 64, true, endp⟩
  else
    let n := BitVec.ofNat 64 (decimalValue digits)
    ⟨if t.1 then -n else n, false, endp⟩

/-- How `s` is cut into blanks, a sign, all its digits and the rest. -/
structure Numeral (s blanks sign digits rest : List Char) : Prop where
  split : s = blanks ++ (sign ++ (digits ++ rest))
  blank : ∀ c ∈ blanks, isSpace c
  sign : sign = [] ∨ sign = ['+'] ∨ sign = ['-']
  nonempty : digits ≠ []
  digit : ∀ c ∈ digits, c.isDigit
  stop : ∀ c, rest.head? = some c → ¬ c.isDigit

theorem isDigit_plain {c : Char} (h : c.isDigit) : ¬ isSpace c ∧ c ≠ '+' ∧ c ≠ '-' := by
  rw [isDigit_iff] at h
  refine ⟨?_, ?_, ?_⟩
  · intro hspace
    rcases of_decide_eq_true hspace with rfl | hspace
    · exact absurd h.1 (by decide)
    · omega
  · rintro rfl
    exact absurd h.1 (by decide)
  · rintro rfl
    exact absurd h.1 (by decide)

theorem unsign_plain {s : List Char} (h : ∀ c, s.head? = some c → c ≠ '+' ∧ c ≠ '-') :
    unsign s = (false, s) := by
  cases s with
  | nil => rfl
  | cons c s =>
    obtain ⟨hplus, hminus⟩ := h c rfl
    unfold unsign
    split
    · next heq => exact absurd (List.cons.inj heq).1 hplus
    · next heq => exact absurd (List.cons.inj heq).1 hminus
    · rfl

section
variable {s blanks sign digits rest : List Char}

theorem Numeral.unsign_eq (h : Numeral s blanks sign digits rest) :
    unsign (s.dropWhile isSpace) = (decide (sign = ['-']), digits ++ rest) := by
  have hhead : ∀ c, (digits ++ rest).head? = some c → c.isDigit := by
    intro c hc
    rw [List.head?_append_of_ne_nil _ h.nonempty] at hc
    exact h.digit c (List.mem_of_head? hc)
  rw [h.split, List.dropWhile_append_of_pos h.blank]
  rcases h.sign with rfl | rfl | rfl
  · rw [List.nil_append, dropWhile_of_head fun c hc => (isDigit_plain (hhead c hc)).1]
    exact unsign_plain fun c hc => (isDigit_plain (hhead c hc)).2
  · rfl
  · rfl

theorem Numeral.strtoull_eq (h : Numeral s blanks sign digits rest) :
    strtoull s = if 2 ^ 64 ≤ decimalValue digits then ⟨BitVec.allOnes 64, true, rest⟩
      else ⟨if sign = ['-'] then -BitVec.ofNat 64 (decimalValue digits)
        else BitVec.ofNat 64 (decimalValue digits), false, rest⟩ := by
  have htake : (digits ++ rest).takeWhile Char.isDigit = digits :=
    takeWhile_append h.digit h.stop
  have hdrop : (digits ++ rest).dropWhile Char.isDigit = rest :=
    dropWhile_append h.digit h.stop
  simp only [strtoull, h.unsign_eq, htake, hdrop, h.nonempty, if_false, decide_eq_true_eq]

theorem Numeral.unique {blanks' sign' digits' rest' : List Char}
    (h : Numeral s blanks sign digits rest) (h' : Numeral s blanks' sign' digits' rest') :
    blanks = blanks' ∧ sign = sign' ∧ digits = digits' ∧ rest = rest' := by
  have hbody : digits ++ rest = digits' ++ rest' :=
    (Prod.mk.inj (h.unsign_eq.symm.trans h'.unsign_eq)).2
  have hdigits : digits = digits' := by
    rw [← takeWhile_append h.digit h.stop, hbody, takeWhile_append h'.digit h'.stop]
  have hrest : rest = rest' := by
    rw [hdigits] at hbody
    exact List.append_cancel_left hbody
  have hhead : ∀ {b t d r : List Char}, Numeral s b t d r →
      s.takeWhile isSpace = b := by
    intro b t d r hn
    rw [hn.split]
    refine takeWhile_append hn.blank fun c hc => ?_
    rcases hn.sign with rfl | rfl | rfl
    · rw [List.nil_append, List.head?_append_of_ne_nil _ hn.nonempty] at hc
      exact (isDigit_plain (hn.digit c (List.mem_of_head? hc))).1
    · obtain rfl := Option.some.inj hc
      decide
    · obtain rfl := Option.some.inj hc
      decide
  have hblanks : blanks = blanks' := (hhead h).symm.trans (hhead h')
  refine ⟨hblanks, ?_, hdigits, hrest⟩
  have hsplit := h.split.symm.trans h'.split
  rw [hblanks, hdigits, hrest] at hsplit
  exact List.append_cancel_right (List.append_cancel_left hsplit)

theorem Numeral.endp_ne (h : Numeral s blanks sign digits rest) : (strtoull s).endp ≠ s := by
  have hendp : (strtoull s).endp = rest := by
    rw [h.strtoull_eq]
    split_ifs <;> rfl
  have hlen := congrArg List.length h.split
  have hpos := List.length_pos_iff.mpr h.nonempty
  simp only [List.length_append] at hlen
  intro heq
  rw [hendp] at heq
  rw [heq] at hlen
  omega

theorem exists_numeral (h : (strtoull s).endp ≠ s) :
    ∃ blanks sign digits rest, Numeral s blanks sign digits rest := by
  have hsign : ∃ sign, s.dropWhile isSpace = sign ++ (unsign (s.dropWhile isSpace)).2 ∧
      (sign = [] ∨ sign = ['+'] ∨ sign = ['-']) := by
    unfold unsign
    split
    · exact ⟨['+'], by assumption, by simp⟩
    · exact ⟨['-'], by assumption, by simp⟩
    · exact ⟨[], rfl, .inl rfl⟩
  obtain ⟨sign, hsplit, hsign⟩ := hsign
  have hdigits : (unsign (s.dropWhile isSpace)).2.takeWhile Char.isDigit ≠ [] := by
    intro hnil
    rw [strtoull, if_pos hnil] at h
    exact h rfl
  refine ⟨s.takeWhile isSpace, sign, _, (unsign (s.dropWhile isSpace)).2.dropWhile Char.isDigit,
    ?_, ?_, hsign, hdigits, ?_, ?_⟩
  · rw [List.takeWhile_append_dropWhile, ← hsplit, List.takeWhile_append_dropWhile]
  · exact fun c hc => of_mem_takeWhile hc
  · exact fun c hc => of_mem_takeWhile hc
  · exact fun c hc => head?_dropWhile hc

def signed (sign digits : List Char) : BitVec 64 :=
  if sign = ['-'] then -BitVec.ofNat 64 (decimalValue digits)
  else BitVec.ofNat 64 (decimalValue digits)

theorem Numeral.strtoull_of_lt (h : Numeral s blanks sign digits rest)
    (hrange : decimalValue digits < 2 ^ 64) : strtoull s = ⟨signed sign digits, false, rest⟩ := by
  rw [h.strtoull_eq, if_neg (not_le.mpr hrange)]
  rfl

theorem accepted_iff : (strtoull s).endp ≠ s ∧ (strtoull s).erange = false ↔
    ∃ blanks sign digits, Numeral s blanks sign digits (strtoull s).endp ∧
      decimalValue digits < 2 ^ 64 := by
  constructor
  · rintro ⟨hne, herange⟩
    obtain ⟨blanks, sign, digits, rest, hnum⟩ := exists_numeral hne
    have hrange : decimalValue digits < 2 ^ 64 := by
      by_contra hlarge
      rw [hnum.strtoull_eq, if_pos (not_lt.mp hlarge)] at herange
      cases herange
    refine ⟨blanks, sign, digits, ?_, hrange⟩
    rwa [hnum.strtoull_of_lt hrange]
  · rintro ⟨blanks, sign, digits, hnum, hrange⟩
    exact ⟨hnum.endp_ne, by rw [hnum.strtoull_of_lt hrange]⟩

/-- The whole string is read without an error exactly if it is a numeral in range. -/
theorem whole_iff : (strtoull s).endp ≠ s ∧ (strtoull s).endp = [] ∧ (strtoull s).erange = false ↔
    ∃ blanks sign digits, Numeral s blanks sign digits [] ∧ decimalValue digits < 2 ^ 64 := by
  constructor
  · rintro ⟨hne, hend, herange⟩
    obtain ⟨blanks, sign, digits, hnum, hrange⟩ := accepted_iff.mp ⟨hne, herange⟩
    rw [hend] at hnum
    exact ⟨blanks, sign, digits, hnum, hrange⟩
  · rintro ⟨blanks, sign, digits, hnum, hrange⟩
    refine ⟨hnum.endp_ne, ?_⟩
    rw [hnum.strtoull_of_lt hrange]
    exact ⟨rfl, rfl⟩

end

end Strtoull
