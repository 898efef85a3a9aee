import Mathlib.RingTheory.Int.Basic
import Mathlib.RingTheory.Multiplicity
import Mathlib.Tactic

/-!
# Linear congruential generators and their leading digits

`affine a c` is one step of the generator. Its iterates are again affine. The
second part compares the leading digits of two affine maps modulo `2 ^ w`, the
second one applied to a word with some bits flipped: no choice of the first map
makes the leading digits agree on every word. This says when two streams which
are seeded apart can deliver the same digits.
-/

namespace Congruential

section Iterates
variable {R : Type*} [CommSemiring R] (a c : R)

def affine (x : R) : R := a * x + c

theorem affine_iterate (n : ℕ) (x : R) :
    (affine a c)^[n] x = a ^ n * x + (affine a c)^[n] 0 := by
  induction n generalizing x with
  | zero => simp
  | succ n ih =>
    rw [Function.iterate_succ_apply', ih, Function.iterate_succ_apply' _ _ (0 : R)]
    simp only [affine]
    ring

end Iterates

def top (w b : ℕ) (x : ℤ) : ℤ := x % 2 ^ w / 2 ^ b

theorem top_congr {w b : ℕ} {x y : ℤ} (h : (2 : ℤ) ^ w ∣ x - y) : top w b x = top w b y := by
  have hmod : x % 2 ^ w = y % 2 ^ w :=
    Int.emod_eq_emod_iff_emod_sub_eq_zero.mpr (Int.emod_eq_zero_of_dvd h)
  simp only [top, hmod]

theorem near_of_top_eq {w b : ℕ} {x y : ℤ} (h : top w b x = top w b y) :
    ∃ e : ℤ, |e| < 2 ^ b ∧ (2 : ℤ) ^ w ∣ x - y - e := by
  have hb : (0 : ℤ) < 2 ^ b := by positivity
  refine ⟨x % 2 ^ w - y % 2 ^ w, ?_, ?_⟩
  · have hx := Int.emod_add_mul_ediv (x % 2 ^ w) (2 ^ b)
    have hy := Int.emod_add_mul_ediv (y % 2 ^ w) (2 ^ b)
    have hx0 := Int.emod_nonneg (x % 2 ^ w) hb.ne'
    have hx1 := Int.emod_lt_of_pos (x % 2 ^ w) hb
    have hy0 := Int.emod_nonneg (y % 2 ^ w) hb.ne'
    have hy1 := Int.emod_lt_of_pos (y % 2 ^ w) hb
    simp only [top] at h
    rw [h] at hx
    rw [abs_lt]
    constructor <;> linarith
  · have hx := Int.emod_add_mul_ediv x (2 ^ w)
    have hy := Int.emod_add_mul_ediv y (2 ^ w)
    exact ⟨x / 2 ^ w - y / 2 ^ w, by linear_combination -hx + hy⟩

theorem exists_mul_near {w : ℕ} {A : ℤ} (hA : Odd A) (n : ℤ) :
    ∃ y : ℕ, (2 : ℤ) ^ w ∣ A * y - n := by
  have hcop : IsCoprime A (2 ^ w) := (Int.isCoprime_two_right.mpr hA).pow_right
  obtain ⟨p, q, hpq⟩ := hcop
  have hW : (0 : ℤ) < 2 ^ w := by positivity
  refine ⟨((p * n) % 2 ^ w).toNat, ?_⟩
  rw [Int.toNat_of_nonneg (Int.emod_nonneg _ hW.ne')]
  have hmod := Int.emod_add_mul_ediv (p * n) (2 ^ w)
  refine ⟨-(A * (p * n / 2 ^ w)) - n * q, ?_⟩
  linear_combination A * hmod + n * hpq

theorem exists_mul_half {w : ℕ} {t : ℤ} (ht : ¬ (2 : ℤ) ^ w ∣ t) :
    ∃ y : ℕ, (2 : ℤ) ^ w ∣ t * y - 2 ^ (w - 1) := by
  have ht0 : t ≠ 0 := by
    rintro rfl
    exact ht (dvd_zero _)
  obtain ⟨m, htm, hm⟩ :=
    (Int.finiteMultiplicity_iff.mpr ⟨by decide, ht0⟩ :
      FiniteMultiplicity (2 : ℤ) t).exists_eq_pow_mul_and_not_dvd
  generalize multiplicity (2 : ℤ) t = a at htm
  have haw : a < w := by
    by_contra hle
    exact ht (htm ▸ (pow_dvd_pow 2 (not_lt.mp hle)).mul_right m)
  obtain ⟨q, hq⟩ : Odd m := by
    rw [← Int.not_even_iff_odd, even_iff_two_dvd]
    exact hm
  -- `t` is an odd multiple of `2 ^ a`, so `2 ^ (w - 1 - a)` moves its lowest bit to the top
  refine ⟨2 ^ (w - 1 - a), q, ?_⟩
  have hhalf : (2 : ℤ) ^ a * 2 ^ (w - 1 - a) = 2 ^ (w - 1) := by
    rw [← pow_add]
    congr 1
    omega
  have hfull : (2 : ℤ) ^ (w - 1) * 2 = 2 ^ w := by
    rw [← pow_succ]
    congr 1
    omega
  push_cast
  rw [htm, hq]
  linear_combination (2 * q + 1) * hhalf + q * hfull

theorem dvd_of_progression_near {w b : ℕ} (hb : b + 2 ≤ w) {t d : ℤ}
    (h : ∀ y : ℕ, ∃ e : ℤ, |e| < 2 ^ b ∧ (2 : ℤ) ^ w ∣ t * y + d - e) : (2 : ℤ) ^ w ∣ t := by
  by_contra ht
  obtain ⟨y, hy⟩ := exists_mul_half ht
  obtain ⟨e₀, he₀, hd₀⟩ := h 0
  obtain ⟨e, he, hd⟩ := h y
  have hhalf : (2 : ℤ) ^ w = 2 * 2 ^ (w - 1) := by
    rw [← pow_succ']
    congr 1
    omega
  have hblock : 2 * (2 : ℤ) ^ b ≤ 2 ^ (w - 1) := by
    rw [← pow_succ']
    exact pow_le_pow_right₀ (by norm_num) (by omega)
  have hdvd : (2 : ℤ) ^ w ∣ 2 ^ (w - 1) - (e - e₀) := by
    obtain ⟨p, hp⟩ := hd
    obtain ⟨p₀, hp₀⟩ := hd₀
    obtain ⟨q, hq⟩ := hy
    push_cast at hp₀
    exact ⟨p - p₀ - q, by linear_combination hp - hp₀ - hq⟩
  rw [abs_lt] at he he₀
  have hpos : (0 : ℤ) < 2 ^ (w - 1) := by positivity
  have hlt : |2 ^ (w - 1) - (e - e₀)| < (2 : ℤ) ^ w := by
    rw [abs_lt]
    constructor <;> linarith
  have hzero := Int.eq_zero_of_abs_lt_dvd hdvd hlt
  linarith

theorem top_eq_zero_of_lt {w b : ℕ} (hb : b ≤ w) {x : ℤ} (h0 : 0 ≤ x) (h1 : x < 2 ^ b) :
    top w b x = 0 := by
  have hle : (2 : ℤ) ^ b ≤ 2 ^ w := pow_le_pow_right₀ (by norm_num) hb
  rw [top, Int.emod_eq_of_lt h0 (h1.trans_le hle)]
  exact Int.ediv_eq_zero_of_lt h0 h1

theorem mem_block_of_top_eq_zero {w b : ℕ} (hb : b + 1 ≤ w) {x : ℤ}
    (hlo : -(2 : ℤ) ^ b ≤ x) (hhi : x < 2 * 2 ^ b) (h : top w b x = 0) : 0 ≤ x ∧ x < 2 ^ b := by
  have hpos : (0 : ℤ) < 2 ^ b := by positivity
  have hle : 2 * (2 : ℤ) ^ b ≤ 2 ^ w := by
    rw [← pow_succ']
    exact pow_le_pow_right₀ (by norm_num) hb
  have hlt : x % 2 ^ w < 2 ^ b := by
    have hdiv := Int.emod_add_mul_ediv (x % 2 ^ w) (2 ^ b)
    have hmod := Int.emod_lt_of_pos (x % 2 ^ w) hpos
    simp only [top] at h
    rw [h] at hdiv
    linarith
  rcases lt_or_ge x 0 with hx | hx
  · have hwrap : x % 2 ^ w = x + 2 ^ w := by
      rw [← Int.add_emod_right, Int.emod_eq_of_lt (by linarith) (by linarith)]
    linarith
  · rw [Int.emod_eq_of_lt hx (by linarith)] at hlt
    exact ⟨hx, hlt⟩

/-- A shift which never changes the leading digits along the residue class of
`B` modulo `2 ^ k` is shorter than `2 ^ k`: the class meets both ends of a block. -/
theorem shift_lt_of_top_eq {w b k : ℕ} (hk : k ≤ b) (hb : b + 1 ≤ w) {A B e : ℤ}
    (hA : Odd A) (he : |e| < 2 ^ b)
    (h : ∀ y : ℕ, top w b (2 ^ k * A * y + B) = top w b (2 ^ k * A * y + B - e)) :
    |e| < 2 ^ k := by
  have hs : (0 : ℤ) < 2 ^ k := by positivity
  have hρ0 := Int.emod_nonneg B hs.ne'
  have hρ1 := Int.emod_lt_of_pos B hs
  have hB := Int.emod_add_mul_ediv B (2 ^ k)
  have hkb : (2 : ℤ) ^ k * 2 ^ (b - k) = 2 ^ b := by
    rw [← pow_add]
    congr 1
    omega
  have hle : (2 : ℤ) ^ k ≤ 2 ^ b := pow_le_pow_right₀ (by norm_num) hk
  set ρ := B % 2 ^ k
  rw [abs_lt] at he
  -- every member of the class below the block end is some value of the progression
  have hreach : ∀ n : ℤ, 0 ≤ ρ + 2 ^ k * n → ρ + 2 ^ k * n < 2 ^ b →
      0 ≤ ρ + 2 ^ k * n - e ∧ ρ + 2 ^ k * n - e < 2 ^ b := by
    intro n h0 h1
    obtain ⟨y, hy⟩ := exists_mul_near (w := w) hA (n - B / 2 ^ k)
    obtain ⟨p, hp⟩ := hy
    have hclose : (2 : ℤ) ^ w ∣ 2 ^ k * A * y + B - (ρ + 2 ^ k * n) :=
      ⟨2 ^ k * p, by linear_combination 2 ^ k * hp - hB⟩
    have hclose' : (2 : ℤ) ^ w ∣ 2 ^ k * A * y + B - e - (ρ + 2 ^ k * n - e) :=
      ⟨2 ^ k * p, by linear_combination 2 ^ k * hp - hB⟩
    have htop := h y
    rw [top_congr hclose, top_congr hclose', top_eq_zero_of_lt (by omega) h0 h1] at htop
    exact mem_block_of_top_eq_zero hb (by linarith) (by linarith) htop.symm
  have hfirst := (hreach 0 (by linarith) (by linarith)).1
  have hlast := (hreach (2 ^ (b - k) - 1) (by nlinarith) (by nlinarith)).2
  rw [abs_lt]
  constructor <;> nlinarith

/-- The two families of words below differ from each other in digit `j`; the
flipped words are `x + c` and `x + c - 2 ^ (j + 1)`. -/
theorem not_top_eq_of_flip {w b j : ℕ} (hj : j + 1 < w) (hb : b + 2 ≤ w) {A K : ℤ}
    (hA : A % 4 = 1) (hK : K % 4 = 1)
    (hfar : ∀ ε : ℤ, |ε| < 4 → ¬ (2 : ℤ) ^ (w - b) ∣ 2 * K - ε) (B C c : ℤ)
    (heven : ∀ y : ℕ, top w b (A * (2 ^ (j + 1) * y) + B) =
      top w b (K * (2 ^ (j + 1) * y + c) + C))
    (hodd : ∀ y : ℕ, top w b (A * (2 ^ (j + 1) * y + 2 ^ j) + B) =
      top w b (K * (2 ^ (j + 1) * y + (c - 2 ^ j)) + C)) : False := by
  have hAodd : Odd A := Int.odd_iff.mpr (by omega)
  have hstep : (2 : ℤ) ^ w ∣ (A - K) * 2 ^ (j + 1) := by
    apply dvd_of_progression_near hb (d := B - K * c - C)
    intro y
    obtain ⟨e, he, p, hp⟩ := near_of_top_eq (heven y)
    exact ⟨e, he, p, by linear_combination hp⟩
  obtain ⟨q, hq⟩ := hstep
  obtain ⟨e₀, he₀, p₀, hp₀⟩ := near_of_top_eq (heven 0)
  obtain ⟨e₁, he₁, p₁, hp₁⟩ := near_of_top_eq (hodd 0)
  push_cast at hp₀ hp₁
  have hdiff : 2 ^ j * (A + K) - (e₁ - e₀) = 2 ^ w * (p₁ - p₀) := by
    linear_combination hp₁ - hp₀
  have hpos : (0 : ℤ) < 2 ^ j := by positivity
  have hdouble : (2 : ℤ) ^ (j + 1) = 2 * 2 ^ j := pow_succ' 2 j
  obtain ⟨n, hn⟩ : ∃ n, w = j + 1 + (n + 1) := ⟨w - j - 2, by omega⟩
  have hsplit : (2 : ℤ) ^ w = 2 ^ (j + 1) * 2 ^ (n + 1) := by rw [hn, pow_add]
  rcases Nat.lt_or_ge j b with hjb | hjb
  · -- both shifts are shorter than `2 ^ (j + 1)`, which bounds `A + K` modulo `2 ^ (w - j)`
    have hs₀ : |e₀| < 2 ^ (j + 1) := by
      apply shift_lt_of_top_eq (w := w) hjb (by omega) hAodd he₀ (B := B)
      intro y
      have hleft : 2 ^ (j + 1) * A * y + B = A * (2 ^ (j + 1) * y) + B := by ring
      rw [hleft, heven y]
      exact top_congr ⟨-q * y - p₀, by linear_combination -y * hq - hp₀⟩
    have hs₁ : |e₁| < 2 ^ (j + 1) := by
      apply shift_lt_of_top_eq (w := w) hjb (by omega) hAodd he₁ (B := A * 2 ^ j + B)
      intro y
      have hleft : 2 ^ (j + 1) * A * y + (A * 2 ^ j + B) = A * (2 ^ (j + 1) * y + 2 ^ j) + B := by
        ring
      rw [hleft, hodd y]
      exact top_congr ⟨-q * y - p₁, by linear_combination -y * hq - hp₁⟩
    have hε : e₁ - e₀ = 2 ^ j * (A + K - 2 * 2 ^ (n + 1) * (p₁ - p₀)) := by
      rw [hsplit, hdouble] at hdiff
      linear_combination -hdiff
    set ε := A + K - 2 * 2 ^ (n + 1) * (p₁ - p₀) with hεdef
    have hε4 : |ε| < 4 := by
      have hmul : 2 ^ j * |ε| < 2 ^ j * 4 :=
        calc 2 ^ j * |ε| = |e₁ - e₀| := by rw [hε, abs_mul, abs_of_pos hpos]
          _ ≤ |e₁| + |e₀| := abs_sub e₁ e₀
          _ < 2 ^ j * 4 := by linarith
      exact lt_of_mul_lt_mul_left hmul hpos.le
    have hAK : A - K = 2 ^ (n + 1) * q := by
      rw [hsplit] at hq
      have hpos' : (2 : ℤ) ^ (j + 1) ≠ 0 := by positivity
      apply mul_left_cancel₀ hpos'
      linear_combination hq
    apply hfar ε hε4
    have hdvd : (2 : ℤ) ^ (n + 1) ∣ 2 * K - ε :=
      ⟨2 * (p₁ - p₀) - q, by rw [hεdef]; linear_combination -hAK⟩
    exact (pow_dvd_pow 2 (by omega)).trans hdvd
  · -- the difference of the shifts is a multiple of `2 ^ (j + 1)` within one block of zero
    have hle : (2 : ℤ) ^ b ≤ 2 ^ j := pow_le_pow_right₀ (by norm_num) hjb
    obtain ⟨m, hm⟩ : ∃ m, A + K = 2 * (2 * m + 1) := ⟨(A + K) / 4, by omega⟩
    have hmul : e₁ - e₀ = 2 ^ (j + 1) * (2 * m + 1 - 2 ^ (n + 1) * (p₁ - p₀)) := by
      rw [hsplit, hm] at hdiff
      linear_combination -hdiff - (2 * m + 1) * hdouble
    have hzero : e₁ - e₀ = 0 := by
      apply Int.eq_zero_of_abs_lt_dvd (Dvd.intro _ hmul.symm)
      rw [abs_lt] at he₀ he₁ ⊢
      constructor <;> linarith
    rw [hzero, pow_succ' 2 n] at hmul
    have hne : (2 : ℤ) ^ (j + 1) ≠ 0 := by positivity
    have hfactor := (mul_eq_zero.mp hmul.symm).resolve_left hne
    have heven' : 2 * (2 ^ n * (p₁ - p₀)) = 2 * m + 1 := by linear_combination -hfactor
    omega

section Words

theorem two_pow_mul_xor {k c : ℕ} (hc : c < 2 ^ k) (y : ℕ) :
    (2 ^ k * y) ^^^ c = 2 ^ k * y + c := by
  rw [← Nat.div_add_mod ((2 ^ k * y) ^^^ c) (2 ^ k), Nat.xor_div_two_pow, Nat.xor_mod_two_pow,
    Nat.mul_div_cancel_left _ (Nat.two_pow_pos k), Nat.div_eq_of_lt hc, Nat.mul_mod_right,
    Nat.mod_eq_of_lt hc]
  simp

variable {w : ℕ}

theorem top_word (b : ℕ) (A x B : BitVec w) :
    (((A * x + B) >>> b).toNat : ℤ) = top w b (A.toNat * x.toNat + B.toNat) := by
  simp only [BitVec.toNat_ushiftRight, Nat.shiftRight_eq_div_pow, BitVec.toNat_add,
    BitVec.toNat_mul, top]
  push_cast
  simp

theorem top_ofNat (b : ℕ) (A B : BitVec w) (n : ℕ) :
    (((A * BitVec.ofNat w n + B) >>> b).toNat : ℤ) = top w b (A.toNat * n + B.toNat) := by
  rw [top_word]
  apply top_congr
  refine ⟨-(A.toNat * (n / 2 ^ w)), ?_⟩
  have hn := Int.emod_add_mul_ediv (n : ℤ) (2 ^ w)
  rw [BitVec.toNat_ofNat]
  push_cast
  linear_combination (A.toNat : ℤ) * hn

/-- Two affine words with multipliers `1` modulo `4`, one of them read at a word
with the bits of `c` flipped, have different leading digits at some word. -/
theorem exists_ushiftRight_ne {b : ℕ} (hb : b + 2 ≤ w) {A K : BitVec w}
    (hA : A.toNat % 4 = 1) (hK : K.toNat % 4 = 1)
    (hfar : ∀ ε : ℤ, |ε| < 4 → ¬ (2 : ℤ) ^ (w - b) ∣ 2 * K.toNat - ε) (B C : BitVec w)
    {c : BitVec w} (hc : c ≠ 0) (hsmall : c.toNat < 2 ^ (w - 1)) :
    ∃ x : BitVec w, (A * x + B) >>> b ≠ (K * (x ^^^ c) + C) >>> b := by
  by_contra hall
  push Not at hall
  have hc0 : c.toNat ≠ 0 := by
    intro h
    exact hc (BitVec.eq_of_toNat_eq (by simpa using h))
  -- `j` is the highest flipped bit
  obtain ⟨j, hj⟩ : ∃ j, j = c.toNat.log2 := ⟨_, rfl⟩
  have hlo : 2 ^ j ≤ c.toNat := hj ▸ Nat.log2_self_le hc0
  have hhi : c.toNat < 2 ^ (j + 1) := hj ▸ Nat.lt_log2_self
  have hjw : j + 1 < w := by
    have hlt : j < w - 1 := (Nat.pow_lt_pow_iff_right (by omega)).mp (hlo.trans_lt hsmall)
    omega
  have hflip : ∀ n : ℕ, BitVec.ofNat w n ^^^ c = BitVec.ofNat w (n ^^^ c.toNat) := by
    intro n
    apply BitVec.eq_of_toNat_eq
    rw [BitVec.toNat_xor, BitVec.toNat_ofNat, BitVec.toNat_ofNat, Nat.xor_mod_two_pow,
      Nat.mod_eq_of_lt c.isLt]
  have hfull : ∀ n : ℕ, top w b (A.toNat * n + B.toNat) =
      top w b (K.toNat * (n ^^^ c.toNat : ℕ) + C.toNat) := by
    intro n
    have hn := hall (BitVec.ofNat w n)
    rw [hflip] at hn
    rw [← top_ofNat, ← top_ofNat, hn]
  apply not_top_eq_of_flip hjw hb (A := A.toNat) (K := K.toNat) (by omega) (by omega) hfar
    B.toNat C.toNat c.toNat
  · intro y
    have hy := hfull (2 ^ (j + 1) * y)
    rw [two_pow_mul_xor hhi] at hy
    push_cast at hy
    exact hy
  · intro y
    have hrest : c.toNat - 2 ^ j < 2 ^ j := by
      rw [pow_succ] at hhi
      omega
    have hxor : (2 ^ (j + 1) * y + 2 ^ j) ^^^ c.toNat = 2 ^ (j + 1) * y + (c.toNat - 2 ^ j) := by
      have hsplit : (c.toNat - 2 ^ j) ^^^ (2 ^ j * 1) = c.toNat := by
        rw [Nat.xor_comm, two_pow_mul_xor hrest]
        omega
      have hword : 2 ^ (j + 1) * y + 2 ^ j = (2 ^ (j + 1) * y) ^^^ (2 ^ j * 1) := by
        rw [two_pow_mul_xor (by rw [pow_succ]; omega)]
        omega
      conv_lhs => rw [hword, ← hsplit]
      rw [Nat.xor_comm (c.toNat - 2 ^ j), Nat.xor_assoc, ← Nat.xor_assoc (2 ^ j * 1),
        Nat.xor_self, Nat.zero_xor, two_pow_mul_xor (by omega)]
    have hy := hfull (2 ^ (j + 1) * y + 2 ^ j)
    rw [hxor] at hy
    push_cast [Nat.cast_sub hlo] at hy
    exact hy

end Words

end Congruential
