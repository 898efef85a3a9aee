import XrdBlackhole.Library.PrintfInt
import XrdBlackhole.Library.Components

/-!
# The order of printed integers

Texts are ordered by their characters, numbers by their values. For natural numbers
the two orders agree on the fields of a conversion as long as no field outgrows the
room for its digits, and they part at the first one which does.
-/

namespace Digits

theorem decimalValue_cons (c : Char) (s : List Char) :
    decimalValue (c :: s) = 10 ^ s.length * (c.toNat - 48) + decimalValue s := by
  rw [decimalValue, Nat.ofDigitChars_cons, Nat.ofDigitChars_eq_ofDigitChars_zero, Nat.mul_zero,
    Nat.zero_add]
  rfl

theorem decimalValue_lt {s : List Char} (h : ∀ c ∈ s, c.isDigit) :
    decimalValue s < 10 ^ s.length := by
  induction s with
  | nil => exact Nat.one_pos
  | cons c s ih =>
    have hc := (isDigit_iff c).mp (h c List.mem_cons_self)
    have hs := ih fun d hd => h d (List.mem_cons_of_mem _ hd)
    have hdigit : c.toNat - 48 ≤ 9 := by omega
    have hmul := Nat.mul_le_mul_left (10 ^ s.length) hdigit
    rw [decimalValue_cons, List.length_cons, pow_succ]
    omega

theorem lt_iff_toNat (c d : Char) : c < d ↔ c.toNat < d.toNat := Iff.rfl

theorem lt_iff_decimalValue {s t : List Char} (hs : ∀ c ∈ s, c.isDigit) (ht : ∀ c ∈ t, c.isDigit)
    (hlen : s.length = t.length) : s < t ↔ decimalValue s < decimalValue t := by
  induction s generalizing t with
  | nil =>
    obtain rfl := List.length_eq_zero_iff.mp hlen.symm
    simp
  | cons c s ih =>
    cases t with
    | nil => cases hlen
    | cons d t =>
      have hc := (isDigit_iff c).mp (hs c List.mem_cons_self)
      have hd := (isDigit_iff d).mp (ht d List.mem_cons_self)
      have hs' : ∀ x ∈ s, x.isDigit := fun x hx => hs x (List.mem_cons_of_mem _ hx)
      have ht' : ∀ x ∈ t, x.isDigit := fun x hx => ht x (List.mem_cons_of_mem _ hx)
      have hlen' : s.length = t.length := Nat.succ.inj hlen
      have hvs := decimalValue_lt hs'
      have hvt := decimalValue_lt ht'
      rw [← hlen'] at hvt
      rw [List.cons_lt_cons_iff, ih hs' ht' hlen', decimalValue_cons, decimalValue_cons, ← hlen',
        lt_iff_toNat]
      rcases lt_trichotomy c.toNat d.toNat with hlt | heq | hgt
      · have hstep : c.toNat - 48 + 1 ≤ d.toNat - 48 := by omega
        have hmul := Nat.mul_le_mul_left (10 ^ s.length) hstep
        rw [Nat.mul_add, Nat.mul_one] at hmul
        exact iff_of_true (.inl hlt) (by omega)
      · have hsame : c = d := Char.toNat_inj.mp heq
        rw [hsame]
        simp
      · have hstep : d.toNat - 48 + 1 ≤ c.toNat - 48 := by omega
        have hmul := Nat.mul_le_mul_left (10 ^ s.length) hstep
        rw [Nat.mul_add, Nat.mul_one] at hmul
        refine iff_of_false ?_ (by omega)
        rintro (hlt | ⟨rfl, -⟩)
        · omega
        · omega

theorem toDigits_pow (k : ℕ) : Nat.toDigits 10 (10 ^ k) = '1' :: List.replicate k '0' := by
  induction k with
  | zero => rfl
  | succ k ih =>
    have hle : 10 ≤ 10 ^ (k + 1) := Nat.le_self_pow k.succ_ne_zero 10
    rw [Nat.toDigits_of_base_le (by norm_num) hle, pow_succ, Nat.mul_div_cancel _ (by norm_num),
      Nat.mul_mod_left, ih, List.replicate_succ']
    rfl

theorem toDigits_pred_pow (k : ℕ) :
    Nat.toDigits 10 (10 ^ (k + 1) - 1) = List.replicate (k + 1) '9' := by
  induction k with
  | zero => rfl
  | succ k ih =>
    have hpos : 0 < 10 ^ (k + 1) := Nat.pow_pos (by norm_num)
    have hpow : 10 ^ (k + 1 + 1) = 10 * 10 ^ (k + 1) := pow_succ' 10 _
    have hle : 10 ≤ 10 ^ (k + 1 + 1) - 1 := by
      have := Nat.le_self_pow k.succ_ne_zero 10
      omega
    have hdiv : (10 ^ (k + 1 + 1) - 1) / 10 = 10 ^ (k + 1) - 1 := by omega
    have hmod : (10 ^ (k + 1 + 1) - 1) % 10 = 9 := by omega
    rw [Nat.toDigits_of_base_le (by norm_num) hle, hdiv, hmod, ih]
    exact List.replicate_succ'.symm

end Digits

namespace Components

theorem append_lt_append_of_lt {s t : List Char} (hlen : s.length = t.length) (h : s < t)
    (u v : List Char) : s ++ u < t ++ v := by
  induction s generalizing t with
  | nil =>
    obtain rfl := List.length_eq_zero_iff.mp hlen.symm
    exact absurd h (List.lt_irrefl [])
  | cons c s ih =>
    cases t with
    | nil => cases hlen
    | cons d t =>
      rw [List.cons_append, List.cons_append, List.cons_lt_cons_iff]
      rcases List.cons_lt_cons_iff.mp h with hhead | ⟨hhead, htail⟩
      · exact .inl hhead
      · exact .inr ⟨hhead, ih (Nat.succ.inj hlen) htail⟩

end Components

namespace Printf
open Digits Components

namespace Spec

def minDigits (s : Spec) : ℕ :=
  match s.precision with
  | .num p => max 1 p
  | _ => 1

def plus (s : Spec) : List Char := if s.has '+' then ['+'] else if s.has ' ' then [' '] else []

/-- How many digits a natural number may have before its field gets longer, or, in a
field which is filled on the right, before its digits get more. -/
def room (s : Spec) : ℕ :=
  if s.has '-' then s.minDigits else max s.minDigits (s.minWidth - s.plus.length)

theorem sign_natCast (s : Spec) (x : ℕ) : s.sign x = s.plus := by
  rw [sign, if_neg (by omega), plus]

theorem one_le_minDigits (s : Spec) : 1 ≤ s.minDigits := by
  unfold minDigits
  split
  · exact le_max_left _ _
  · exact le_rfl

theorem one_le_room (s : Spec) : 1 ≤ s.room := by
  have h := s.one_le_minDigits
  unfold room
  split_ifs
  · exact h
  · exact h.trans (le_max_left _ _)

section
variable {s : Spec} {x y : ℕ}

theorem body_length (h : s.precision ≠ .num 0) (x : ℕ) :
    (s.body x).length = max s.minDigits (Nat.toDigits 10 x).length := by
  have hpos : 0 < (Nat.toDigits 10 x).length := Nat.length_toDigits_pos
  unfold body digits minDigits
  cases hp : s.precision with
  | num p =>
    have hne : p ≠ 0 := fun hzero => h (by rw [hp, hzero])
    simp only [hne, false_and, if_false, List.length_leftpad, Int.natAbs_natCast]
    omega
  | none => exact (max_eq_right hpos).symm
  | star => exact (max_eq_right hpos).symm

theorem decimal_ne_nil (h : s.precision ≠ .num 0) (x : ℕ) : s.decimal x ≠ [] := by
  have hbody := body_length h x
  have hone := s.one_le_minDigits
  rw [← List.length_pos_iff, decimal, pad_length]
  omega

theorem length_toDigits_mono (h : x ≤ y) :
    (Nat.toDigits 10 x).length ≤ (Nat.toDigits 10 y).length := by
  have hpos : 0 < (Nat.toDigits 10 y).length := Nat.length_toDigits_pos
  rw [Nat.length_toDigits_le_iff (by norm_num) hpos]
  exact h.trans_lt ((Nat.length_toDigits_le_iff (by norm_num) hpos).mp le_rfl)

theorem body_lt (h : x < y) (k l : ℕ)
    (hlen : (List.replicate k '0' ++ s.body x).length = (List.replicate l '0' ++ s.body y).length) :
    List.replicate k '0' ++ s.body x < List.replicate l '0' ++ s.body y := by
  have hdigit : ∀ (k z : ℕ), ∀ c ∈ List.replicate k '0' ++ s.body z, c.isDigit := by
    intro k z c hc
    rcases List.mem_append.mp hc with hzero | hbody
    · rw [List.eq_of_mem_replicate hzero]
      decide
    · exact s.body_digit z c hbody
  rw [lt_iff_decimalValue (hdigit k x) (hdigit l y) hlen, decimalValue_zeros, decimalValue_zeros,
    s.decimalValue_body, s.decimalValue_body, Int.natAbs_natCast, Int.natAbs_natCast]
  exact h

theorem plus_cases (s : Spec) : s.plus = [] ∨ s.plus = ['+'] ∨ s.plus = [' '] := by
  unfold plus
  split_ifs
  · exact .inr (.inl rfl)
  · exact .inr (.inr rfl)
  · exact .inl rfl

theorem blank_lt {sign : List Char} (hsign : sign = [] ∨ sign = ['+'] ∨ sign = [' ']) (k : ℕ)
    (s : List Char) {t : List Char} (ht : ∀ c ∈ t, c.isDigit) (hne : t ≠ []) (u : List Char) :
    List.replicate (k + 1) ' ' ++ (sign ++ s) < sign ++ (t ++ u) := by
  obtain ⟨d, t, rfl⟩ := List.exists_cons_of_ne_nil hne
  have hd := (isDigit_iff d).mp (ht d List.mem_cons_self)
  have hlt : ' ' < d := (lt_iff_toNat ' ' d).mpr (show 32 < d.toNat by omega)
  have hhead : ∀ s, List.replicate (k + 1) ' ' ++ s < d :: (t ++ u) := by
    intro s
    rw [List.replicate_succ, List.cons_append]
    exact List.cons_lt_cons_iff.mpr (.inl hlt)
  rcases hsign with rfl | rfl | rfl
  · exact hhead s
  · rw [List.replicate_succ, List.cons_append]
    exact List.cons_lt_cons_iff.mpr (.inl (by decide))
  · have hshift : List.replicate (k + 1) ' ' ++ ([' '] ++ s) =
        [' '] ++ (List.replicate (k + 1) ' ' ++ s) := by
      rw [← List.append_assoc, ← List.replicate_succ', List.replicate_succ]
      rfl
    rw [hshift, append_lt_append_iff]
    exact hhead s

theorem decimal_lt (h : s.precision ≠ .num 0) (hxy : x < y) (hy : y < 10 ^ s.room)
    (u v : List Char) : s.decimal x ++ u < s.decimal y ++ v := by
  have hmono := length_toDigits_mono hxy.le
  have hroom := (Nat.length_toDigits_le_iff (by norm_num) s.one_le_room).mpr hy
  have hlenX := body_length h x
  have hlenY := body_length h y
  have hbody := body_lt (s := s) hxy
  rw [decimal, decimal, sign_natCast, sign_natCast]
  unfold room at hroom
  simp only [pad]
  split_ifs at hroom ⊢ with hminus hzero <;> simp only [List.append_assoc]
  · have hlen : (s.body x).length = (s.body y).length := by omega
    rw [append_lt_append_iff]
    exact append_lt_append_of_lt hlen (hbody 0 0 (by simpa using hlen)) _ _
  · have hdigits : s.minDigits = 1 := by rw [minDigits, hzero.2]
    have hlen : (List.replicate (s.minWidth - (s.plus.length + (s.body x).length)) '0' ++
          s.body x).length =
        (List.replicate (s.minWidth - (s.plus.length + (s.body y).length)) '0' ++
          s.body y).length := by
      simp only [List.length_append, List.length_replicate]
      omega
    rw [append_lt_append_iff, ← List.append_assoc, ← List.append_assoc]
    exact append_lt_append_of_lt hlen (hbody _ _ hlen) _ _
  · rcases Nat.eq_or_lt_of_le (show (s.body x).length ≤ (s.body y).length by omega) with heq | hlt
    · rw [heq, append_lt_append_iff, append_lt_append_iff]
      exact append_lt_append_of_lt heq (hbody 0 0 (by simpa using heq)) _ _
    · let k := (s.body y).length - (s.body x).length - 1
      have hk : s.minWidth - (s.plus.length + (s.body x).length) =
          s.minWidth - (s.plus.length + (s.body y).length) + (k + 1) := by omega
      have hne : s.body y ≠ [] := List.length_pos_iff.mp (by omega)
      rw [hk, List.replicate_add, List.append_assoc, append_lt_append_iff]
      exact blank_lt s.plus_cases k _ (s.body_digit y) hne v

/-- A field which has no room left is the sign, the digits and blanks. -/
theorem decimal_full (h : s.has '-' ∨ s.minWidth - s.plus.length ≤ (s.body x).length) :
    ∃ k, s.decimal x = s.plus ++ (s.body x ++ List.replicate k ' ') := by
  rw [decimal, sign_natCast]
  simp only [pad]
  split_ifs with hminus hzero
  · exact ⟨_, rfl⟩
  · have hnone : s.minWidth - (s.plus.length + (s.body x).length) = 0 := by
      have := h.resolve_left hminus
      omega
    exact ⟨0, by rw [hnone]; simp⟩
  · have hnone : s.minWidth - (s.plus.length + (s.body x).length) = 0 := by
      have := h.resolve_left hminus
      omega
    exact ⟨0, by rw [hnone]; simp⟩

theorem body_eq (h : s.precision ≠ .num 0) (hx : s.minDigits ≤ (Nat.toDigits 10 x).length) :
    s.body x = Nat.toDigits 10 x := by
  have hlen := body_length h x
  unfold body digits minDigits at *
  cases hp : s.precision with
  | num p =>
    have hne : p ≠ 0 := fun hzero => h (by rw [hp, hzero])
    simp only [hp] at hx hlen
    simp only [hne, false_and, if_false, Int.natAbs_natCast, List.leftpad]
    rw [Nat.sub_eq_zero_of_le (by omega)]
    rfl
  | none => rfl
  | star => rfl

/-- The first number which has more digits than room comes before the one below it. -/
theorem decimal_pow_lt (h : s.precision ≠ .num 0) (u v : List Char) :
    s.decimal (10 ^ s.room : ℕ) ++ u < s.decimal (10 ^ s.room - 1 : ℕ) ++ v := by
  obtain ⟨k, hk⟩ : ∃ k, s.room = k + 1 := Nat.exists_eq_add_of_le' s.one_le_room
  have hdigits : s.minDigits ≤ s.room := by
    unfold room
    split_ifs
    · exact le_rfl
    · exact le_max_left _ _
  have hwidth : s.has '-' ∨ s.minWidth - s.plus.length ≤ s.room := by
    unfold room
    split_ifs with hminus
    · exact .inl hminus
    · exact .inr (le_max_right _ _)
  have hsmall : s.body (10 ^ s.room - 1 : ℕ) = '9' :: List.replicate k '9' := by
    rw [body_eq h] <;> rw [hk, toDigits_pred_pow]
    · rfl
    · rw [List.length_replicate, ← hk]
      exact hdigits
  have hlarge : s.body (10 ^ s.room : ℕ) = '1' :: List.replicate s.room '0' := by
    rw [body_eq h] <;> rw [toDigits_pow]
    rw [List.length_cons, List.length_replicate]
    omega
  obtain ⟨m, hsmall'⟩ := decimal_full (s := s) (x := 10 ^ s.room - 1)
    (hwidth.imp_right fun hle => by rw [hsmall]; simpa [← hk] using hle)
  obtain ⟨n, hlarge'⟩ := decimal_full (s := s) (x := 10 ^ s.room)
    (hwidth.imp_right fun hle => by rw [hlarge]; simp; omega)
  rw [hsmall', hlarge', hsmall, hlarge, List.append_assoc s.plus, List.append_assoc s.plus,
    append_lt_append_iff]
  exact List.cons_lt_cons_iff.mpr (.inl (by decide))

end

end Spec

end Printf
