import XrdBlackhole.OssFile
import Mathlib.Data.BitVec

/-!
# Random content and the offsets of requests

The generator restarts from the offset of every request. Two requests deliver the
same bytes at the positions which they share, for all inodes, exactly when they
start at the same offset or share no position. Cutting one request in two keeps its
bytes exactly when one of the pieces is empty.
-/

namespace XrdBlackhole

def Covers (size offset blen : Word) (p : ℕ) : Prop :=
  offset.toNat ≤ p ∧ p < offset.toNat + ({ size := size } : ReadView).count offset blen

def ReadView.delivers (v : ReadView) (mem : Mem) (buff : ℕ) (offset blen : Word) (p : ℕ) :
    BitVec 8 :=
  (v.readInner mem buff offset blen).2 (buff + (p - offset.toNat))

def OneContent (s : Stub) (o₁ l₁ o₂ l₂ : Word) : Prop :=
  ∀ (mem₁ mem₂ : Mem) (b₁ b₂ p : ℕ), Covers s.size o₁ l₁ p → Covers s.size o₂ l₂ p →
    s.view.delivers mem₁ b₁ o₁ l₁ p = s.view.delivers mem₂ b₂ o₂ l₂ p

def Chunked (s : Stub) (a b c : ℕ) : Prop :=
  ∀ (mem : Mem) (buff : ℕ),
    (s.view.readInner
      (s.view.readInner mem buff (BitVec.ofNat 64 a) (BitVec.ofNat 64 (b - a))).2
      (buff + (b - a)) (BitVec.ofNat 64 b) (BitVec.ofNat 64 (c - b))).2 =
    (s.view.readInner mem buff (BitVec.ofNat 64 a) (BitVec.ofNat 64 (c - a))).2

theorem delivers_eq_content {v : ReadView} {offset blen : Word} {p : ℕ}
    (hp : Covers v.size offset blen p) (mem : Mem) (buff : ℕ) :
    v.delivers mem buff offset blen p = v.content offset (p - offset.toNat) := by
  have hin : p - offset.toNat < v.count offset blen := by
    obtain ⟨hlo, hhi⟩ := hp
    change p < offset.toNat + v.count offset blen at hhi
    omega
  rw [ReadView.delivers, ReadView.readInner_mem, if_pos (by omega), Nat.add_sub_cancel_left]

theorem Covers.offset_lt {size offset blen : Word} {p : ℕ} (hp : Covers size offset blen p) :
    offset.toNat < 2 ^ 63 := by
  by_contra hle
  have hneg : offset.toInt < 0 := by
    rw [BitVec.toInt_eq_toNat_cond]
    omega
  simp only [Covers, ReadView.count, hneg, if_true] at hp
  omega

theorem Covers.start {size o₁ l₁ o₂ l₂ : Word} {p : ℕ} (hlt : o₁.toNat < o₂.toNat)
    (h₁ : Covers size o₁ l₁ p) (h₂ : Covers size o₂ l₂ p) :
    Covers size o₁ l₁ o₂.toNat ∧ Covers size o₂ l₂ o₂.toNat := by
  unfold Covers at *
  omega

theorem lcg_eq_affine : lcg = Congruential.affine K C := by
  funext state
  simp only [lcg, Congruential.affine, mul_comm]

theorem pow_toNat_mod_four {a : Word} (ha : a.toNat % 4 = 1) (n : ℕ) :
    (a ^ n).toNat % 4 = 1 := by
  induction n with
  | zero => rfl
  | succ n ih =>
    rw [pow_succ, BitVec.toNat_mul, Nat.mod_mod_of_dvd _ (by decide), Nat.mul_mod, ih, ha]

theorem ushiftRight_eq_of_topByte_eq {x y : Word} (h : topByte x = topByte y) :
    x >>> 56 = y >>> 56 := by
  have hnat := congrArg BitVec.toNat h
  simp only [topByte, BitVec.toNat_setWidth, BitVec.toNat_ushiftRight,
    Nat.shiftRight_eq_div_pow] at hnat
  apply BitVec.eq_of_toNat_eq
  simp only [BitVec.toNat_ushiftRight, Nat.shiftRight_eq_div_pow]
  have hx := x.isLt
  have hy := y.isLt
  omega

/-- Streams seeded at different offsets disagree for some inode, at every distance. -/
theorem exists_ino_ne {o₁ o₂ : Word} (hne : o₁ ≠ o₂) (h₁ : o₁.toNat < 2 ^ 63)
    (h₂ : o₂.toNat < 2 ^ 63) (k : ℕ) :
    ∃ ino : Word, topByte (lcg^[k] (o₁ ^^^ ino)) ≠ topByte (lcg (o₂ ^^^ ino)) := by
  have hfar : ∀ ε : ℤ, |ε| < 4 → ¬ (2 : ℤ) ^ (64 - 56) ∣ 2 * K.toNat - ε := by
    intro ε hε
    have hK : K.toNat = 6364136223846793005 := rfl
    rw [abs_lt] at hε
    rw [hK]
    omega
  have hflip : o₁ ^^^ o₂ ≠ 0 := by
    intro h
    exact hne (BitVec.xor_eq_zero_iff.mp h)
  have hsmall : (o₁ ^^^ o₂).toNat < 2 ^ (64 - 1) := by
    rw [BitVec.toNat_xor]
    exact Nat.xor_lt_two_pow h₁ h₂
  obtain ⟨x, hx⟩ := Congruential.exists_ushiftRight_ne (b := 56) (by decide)
    (pow_toNat_mod_four (a := K) (by decide) k) (K := K) (by decide) hfar (lcg^[k] 0) C hflip
    hsmall
  have hself : o₁ ^^^ (o₁ ^^^ x) = x := by
    rw [← BitVec.xor_assoc, BitVec.xor_self, BitVec.zero_xor]
  have hother : o₂ ^^^ (o₁ ^^^ x) = x ^^^ (o₁ ^^^ o₂) := by
    rw [← BitVec.xor_assoc, BitVec.xor_comm o₂, BitVec.xor_comm]
  refine ⟨o₁ ^^^ x, fun heq => hx ?_⟩
  have hshift := ushiftRight_eq_of_topByte_eq heq
  rw [hself, hother, lcg_eq_affine, Congruential.affine_iterate] at hshift
  rw [lcg_eq_affine]
  exact hshift

def randomStub (size ino : Word) : Stub :=
  { size := size, readtype := random, stat := { size := size, dev := 1, ino := ino } }

theorem randomStub_content (size ino offset : Word) (k : ℕ) :
    (randomStub size ino).view.content offset k = topByte (lcg^[k + 1] (offset ^^^ ino)) := by
  have hrandom : (randomStub size ino).view.isRandom = true := by
    simp [randomStub, Stub.view]
  rw [ReadView.content, if_pos hrandom]
  rfl

theorem OneContent.symm {s : Stub} {o₁ l₁ o₂ l₂ : Word} (h : OneContent s o₁ l₁ o₂ l₂) :
    OneContent s o₂ l₂ o₁ l₁ :=
  fun mem₁ mem₂ b₁ b₂ p h₁ h₂ => (h mem₂ mem₁ b₂ b₁ p h₂ h₁).symm

theorem oneContent_of_offset_eq (s : Stub) (o l₁ l₂ : Word) : OneContent s o l₁ o l₂ := by
  intro mem₁ mem₂ b₁ b₂ p h₁ h₂
  rw [delivers_eq_content (v := s.view) h₁, delivers_eq_content (v := s.view) h₂]

theorem not_oneContent_of_lt {size o₁ l₁ o₂ l₂ : Word} (hlt : o₁.toNat < o₂.toNat) {p : ℕ}
    (h₁ : Covers size o₁ l₁ p) (h₂ : Covers size o₂ l₂ p) :
    ∃ ino, ¬ OneContent (randomStub size ino) o₁ l₁ o₂ l₂ := by
  have hne : o₁ ≠ o₂ := fun h => hlt.ne (congrArg BitVec.toNat h)
  obtain ⟨ino, hino⟩ :=
    exists_ino_ne hne h₁.offset_lt h₂.offset_lt (o₂.toNat - o₁.toNat + 1)
  obtain ⟨hs₁, hs₂⟩ := Covers.start hlt h₁ h₂
  refine ⟨ino, fun hone => hino ?_⟩
  have hbyte := hone (fun _ => 0) (fun _ => 0) 0 0 o₂.toNat hs₁ hs₂
  let v := (randomStub size ino).view
  rw [delivers_eq_content (v := v) hs₁, delivers_eq_content (v := v) hs₂, randomStub_content,
    randomStub_content, Nat.sub_self] at hbyte
  exact hbyte

theorem oneContent_all_iff (size o₁ l₁ o₂ l₂ : Word) :
    (∀ s : Stub, s.readtype = random → s.size = size → OneContent s o₁ l₁ o₂ l₂) ↔
      o₁ = o₂ ∨ ∀ p, ¬ (Covers size o₁ l₁ p ∧ Covers size o₂ l₂ p) := by
  refine ⟨fun hall => ?_, fun hsafe s _ hs => ?_⟩
  · by_contra hbad
    push Not at hbad
    obtain ⟨hne, p, h₁, h₂⟩ := hbad
    have hrandom : ∀ ino, OneContent (randomStub size ino) o₁ l₁ o₂ l₂ :=
      fun ino => hall _ rfl rfl
    rcases Nat.lt_or_gt_of_ne (fun h => hne (BitVec.eq_of_toNat_eq h)) with hlt | hlt
    · obtain ⟨ino, hino⟩ := not_oneContent_of_lt hlt h₁ h₂
      exact hino (hrandom ino)
    · obtain ⟨ino, hino⟩ := not_oneContent_of_lt hlt h₂ h₁
      exact hino (hrandom ino).symm
  · rcases hsafe with heq | hnone
    · rw [heq]
      exact oneContent_of_offset_eq s o₂ l₁ l₂
    · intro mem₁ mem₂ b₁ b₂ p h₁ h₂
      exact absurd ⟨hs ▸ h₁, hs ▸ h₂⟩ (hnone p)

section
variable {a b c : ℕ}

theorem count_chunk {v : ReadView} (hsize : v.size.toNat < 2 ^ 63) (hab : a ≤ b)
    (hb : b ≤ v.size.toNat) : v.count (BitVec.ofNat 64 a) (BitVec.ofNat 64 (b - a)) = b - a := by
  have ha : ¬ (BitVec.ofNat 64 a).toInt < 0 := by
    rw [toInt_ofNat_of_lt (by omega)]
    omega
  rw [ReadView.count, if_neg ha, toNat_ofNat_of_lt (by omega), toNat_ofNat_of_lt (by omega)]
  omega

theorem readInner_chunk {v : ReadView} (hsize : v.size.toNat < 2 ^ 63) (hab : a ≤ b)
    (hb : b ≤ v.size.toNat) (mem : Mem) (buff x : ℕ) :
    (v.readInner mem buff (BitVec.ofNat 64 a) (BitVec.ofNat 64 (b - a))).2 x =
      if buff ≤ x ∧ x < buff + (b - a) then v.content (BitVec.ofNat 64 a) (x - buff)
      else mem x := by
  rw [ReadView.readInner_mem, count_chunk hsize hab hb]

theorem chunked_iff {s : Stub} (hsize : s.size.toNat < 2 ^ 63) (hab : a ≤ b) (hbc : b ≤ c)
    (hc : c ≤ s.size.toNat) :
    Chunked s a b c ↔ ∀ k, k < c - b →
      s.view.content (BitVec.ofNat 64 b) k =
        s.view.content (BitVec.ofNat 64 a) (b - a + k) := by
  have hleft := readInner_chunk (v := s.view) hsize hab (hbc.trans hc)
  have hright := readInner_chunk (v := s.view) hsize hbc hc
  have hwhole := readInner_chunk (v := s.view) hsize (hab.trans hbc) hc
  constructor
  · intro hchunk k hk
    have hbyte := congrFun (hchunk (fun _ => 0) 0) (b - a + k)
    rw [hright, hwhole, if_pos (by omega), if_pos (by omega), Nat.zero_add,
      Nat.add_sub_cancel_left, Nat.sub_zero] at hbyte
    exact hbyte
  · intro hsame mem buff
    funext x
    rw [hright, hleft, hwhole]
    by_cases hsecond : buff + (b - a) ≤ x ∧ x < buff + (b - a) + (c - b)
    · obtain ⟨k, rfl⟩ := Nat.exists_eq_add_of_le hsecond.1
      rw [if_pos hsecond, if_pos (by omega), Nat.add_sub_cancel_left, hsame k (by omega)]
      congr 1
      omega
    · rw [if_neg hsecond]
      by_cases hfirst : buff ≤ x ∧ x < buff + (b - a)
      · rw [if_pos hfirst, if_pos (by omega)]
      · rw [if_neg hfirst, if_neg (by omega)]

theorem chunked_all_iff {size : Word} (hsize : size.toNat < 2 ^ 63) (hab : a ≤ b) (hbc : b ≤ c)
    (hc : c ≤ size.toNat) :
    (∀ s : Stub, s.readtype = random → s.size = size → Chunked s a b c) ↔ a = b ∨ b = c := by
  constructor
  · intro hall
    by_contra hbad
    push Not at hbad
    have hne : BitVec.ofNat 64 a ≠ BitVec.ofNat 64 b := by
      intro he
      have hnat := congrArg BitVec.toNat he
      rw [toNat_ofNat_of_lt (by omega), toNat_ofNat_of_lt (by omega)] at hnat
      exact hbad.1 hnat
    obtain ⟨ino, hino⟩ := exists_ino_ne hne (by rw [toNat_ofNat_of_lt] <;> omega)
      (by rw [toNat_ofNat_of_lt] <;> omega) (b - a + 1)
    have hcut := (chunked_iff (s := randomStub size ino) hsize hab hbc hc).mp (hall _ rfl rfl) 0
      (by omega)
    rw [randomStub_content, randomStub_content] at hcut
    exact hino hcut.symm
  · intro hempty s _ hs
    subst hs
    rw [chunked_iff hsize hab hbc hc]
    intro k hk
    rcases hempty with rfl | rfl
    · rw [Nat.sub_self, Nat.zero_add]
    · omega

end

/-- Over all random stubs of one size, two requests agree on the positions which
they share if and only if they start together or share none, and one request is
its two pieces if and only if one of them is empty. -/
theorem oneContent_iff (size : Word) :
    (∀ o₁ l₁ o₂ l₂ : Word,
      (∀ s : Stub, s.readtype = random → s.size = size → OneContent s o₁ l₁ o₂ l₂) ↔
        o₁ = o₂ ∨ ∀ p, ¬ (Covers size o₁ l₁ p ∧ Covers size o₂ l₂ p)) ∧
    ∀ a b c : ℕ, a ≤ b → b ≤ c → c ≤ size.toNat → size.toNat < 2 ^ 63 →
      ((∀ s : Stub, s.readtype = random → s.size = size → Chunked s a b c) ↔ a = b ∨ b = c) :=
  ⟨fun o₁ l₁ o₂ l₂ => oneContent_all_iff size o₁ l₁ o₂ l₂,
    fun _ _ _ hab hbc hc hsize => chunked_all_iff hsize hab hbc hc⟩

theorem two_byte_file_has_two_contents :
    ¬ ∀ (s : Stub) (o₁ l₁ o₂ l₂ : Word), s.readtype = random → s.size.toNat < 2 ^ 63 →
      OneContent s o₁ l₁ o₂ l₂ := by
  intro hall
  have hone := hall (randomStub 2 1) 0 2 1 1 rfl (by decide)
  have hbyte := hone (fun _ => 0) (fun _ => 0) 0 0 1 (by unfold Covers; decide)
    (by unfold Covers; decide)
  revert hbyte
  decide

end XrdBlackhole
