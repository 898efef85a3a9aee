import XrdBlackhole.Stub
import XrdBlackhole.Library.Congruential

/-!
# The virtual content of a file

Buffers are addresses in the caller's memory. `readInner` fills the buffer from
the virtual file: zeros, or the bytes of a congruential generator seeded by the
start offset of the request and the inode. The index of the fill loops is a
natural number, since the buffer has at least `n` bytes.
-/

namespace XrdBlackhole

abbrev Mem := ℕ → BitVec 8

def K : Word := 6364136223846793005
def C : Word := 1442695040888963407

def lcg (state : Word) : Word := state * K + C

def topByte (state : Word) : BitVec 8 := (state >>> 56).setWidth 8

structure Fill where
  mem : Mem
  i : ℕ
  state : Word

def Fill.block (out : ℕ) (f : Fill) : Fill :=
  let s0 := lcg f.state
  let s1 := lcg s0
  let s2 := lcg s1
  let s3 := lcg s2
  let s4 := lcg s3
  let s5 := lcg s4
  let s6 := lcg s5
  let s7 := lcg s6
  let mem := Function.update f.mem (out + f.i) (topByte s0)
  let mem := Function.update mem (out + (f.i + 1)) (topByte s1)
  let mem := Function.update mem (out + (f.i + 2)) (topByte s2)
  let mem := Function.update mem (out + (f.i + 3)) (topByte s3)
  let mem := Function.update mem (out + (f.i + 4)) (topByte s4)
  let mem := Function.update mem (out + (f.i + 5)) (topByte s5)
  let mem := Function.update mem (out + (f.i + 6)) (topByte s6)
  let mem := Function.update mem (out + (f.i + 7)) (topByte s7)
  ⟨mem, f.i + 8, s7⟩

def Fill.byte (out : ℕ) (f : Fill) : Fill :=
  let state := lcg f.state
  ⟨Function.update f.mem (out + f.i) (topByte state), f.i + 1, state⟩

def Fill.blocks (out n : ℕ) : ℕ → Fill → Fill
  | 0, f => f
  | fuel + 1, f => if f.i + 8 ≤ n then Fill.blocks out n fuel (f.block out) else f

def Fill.bytes (out n : ℕ) : ℕ → Fill → Fill
  | 0, f => f
  | fuel + 1, f => if f.i < n then Fill.bytes out n fuel (f.byte out) else f

def fillRandom (mem : Mem) (out n : ℕ) (state : Word) : Mem :=
  ((Fill.blocks out n n ⟨mem, 0, state⟩).bytes out n n).mem

def memset (mem : Mem) (buff n : ℕ) : Mem :=
  fun a => if buff ≤ a ∧ a < buff + n then 0 else mem a

/-- What `Open` caches for the read calls: `m_size`, `m_isRandom` and `m_ino`. -/
structure ReadView where
  size : Word := 0
  isRandom : Bool := false
  ino : Word := 0
  deriving DecidableEq

def ReadView.readInner (v : ReadView) (mem : Mem) (buff : ℕ) (offset blen : Word) : Word × Mem :=
  if offset.toInt < 0 ∨ v.size.toNat ≤ offset.toNat then (0, mem)
  else
    let n := if blen.toNat ≤ (v.size - offset).toNat then blen else v.size - offset
    (n, if v.isRandom then fillRandom mem buff n.toNat (offset ^^^ v.ino)
        else memset mem buff n.toNat)

structure Fill.Streams (mem : Mem) (out : ℕ) (state : Word) (f : Fill) : Prop where
  state_eq : f.state = lcg^[f.i] state
  mem_eq : ∀ a, f.mem a =
    if out ≤ a ∧ a < out + f.i then topByte (lcg^[a - out + 1] state) else mem a

namespace Fill
variable {mem : Mem} {out n : ℕ} {state : Word} {f : Fill}

theorem Streams.start (mem : Mem) (out : ℕ) (state : Word) :
    Streams mem out state ⟨mem, 0, state⟩ := by
  refine ⟨rfl, fun a => ?_⟩
  rw [if_neg (by simp only [Nat.add_zero]; omega)]

@[simp] theorem byte_i (out : ℕ) (f : Fill) : (f.byte out).i = f.i + 1 := rfl

theorem byte_mem (out : ℕ) (f : Fill) :
    (f.byte out).mem = Function.update f.mem (out + f.i) (topByte (lcg f.state)) := rfl

theorem Streams.byte (h : f.Streams mem out state) : (f.byte out).Streams mem out state := by
  have hstate : lcg f.state = lcg^[f.i + 1] state := by
    rw [h.state_eq, Function.iterate_succ_apply']
  refine ⟨hstate, fun a => ?_⟩
  rw [byte_i, byte_mem]
  by_cases ha : a = out + f.i
  · rw [ha, Function.update_self, if_pos (by omega), hstate]
    congr 3
    omega
  · rw [Function.update_of_ne ha, h.mem_eq]
    by_cases hin : out ≤ a ∧ a < out + f.i
    · rw [if_pos hin, if_pos (by omega)]
    · rw [if_neg hin, if_neg (by omega)]

theorem block_eq (out : ℕ) (f : Fill) : f.block out = (Fill.byte out)^[8] f := rfl

theorem Streams.iterate (h : f.Streams mem out state) (k : ℕ) :
    ((Fill.byte out)^[k] f).Streams mem out state := by
  induction k generalizing f with
  | zero => exact h
  | succ k ih => exact ih h.byte

theorem blocks_spec (h : f.Streams mem out state) (hi : f.i ≤ n) (fuel : ℕ) :
    (Fill.blocks out n fuel f).Streams mem out state ∧ (Fill.blocks out n fuel f).i ≤ n := by
  induction fuel generalizing f with
  | zero => exact ⟨h, hi⟩
  | succ fuel ih =>
    simp only [Fill.blocks]
    split_ifs with hgo
    · exact ih (block_eq out f ▸ h.iterate 8) hgo
    · exact ⟨h, hi⟩

theorem bytes_spec (h : f.Streams mem out state) (hi : f.i ≤ n) {fuel : ℕ}
    (hfuel : n ≤ f.i + fuel) :
    (Fill.bytes out n fuel f).Streams mem out state ∧ (Fill.bytes out n fuel f).i = n := by
  induction fuel generalizing f with
  | zero => exact ⟨h, by simp only [Fill.bytes]; omega⟩
  | succ fuel ih =>
    simp only [Fill.bytes]
    split_ifs with hgo
    · exact ih h.byte hgo (by rw [byte_i]; omega)
    · exact ⟨h, by omega⟩

end Fill

theorem fillRandom_apply (mem : Mem) (out n : ℕ) (state : Word) (a : ℕ) :
    fillRandom mem out n state a =
      if out ≤ a ∧ a < out + n then topByte (lcg^[a - out + 1] state) else mem a := by
  have hblocks := Fill.blocks_spec (Fill.Streams.start mem out state) (Nat.zero_le n) n
  have hfuel : n ≤ (Fill.blocks out n n ⟨mem, 0, state⟩).i + n := Nat.le_add_left _ _
  have hbytes := Fill.bytes_spec hblocks.1 hblocks.2 hfuel
  rw [fillRandom, hbytes.1.mem_eq, hbytes.2]

namespace ReadView

def content (v : ReadView) (offset : Word) (k : ℕ) : BitVec 8 :=
  if v.isRandom then topByte (lcg^[k + 1] (offset ^^^ v.ino)) else 0

def count (v : ReadView) (offset blen : Word) : ℕ :=
  if offset.toInt < 0 then 0 else min blen.toNat (v.size.toNat - offset.toNat)

theorem readInner_count (v : ReadView) (mem : Mem) (buff : ℕ) (offset blen : Word) :
    (v.readInner mem buff offset blen).1.toNat = v.count offset blen := by
  unfold readInner count
  by_cases hneg : offset.toInt < 0
  · simp [hneg]
  · by_cases hend : v.size.toNat ≤ offset.toNat
    · simp [hneg, hend]
    · have hsub : (v.size - offset).toNat = v.size.toNat - offset.toNat := by
        rw [BitVec.toNat_sub_of_le]
        exact BitVec.le_def.mpr (by omega)
      simp only [hneg, hend, or_self, if_false, hsub]
      split_ifs with hle
      · exact (min_eq_left hle).symm
      · rw [hsub]
        exact (min_eq_right (by omega)).symm

theorem readInner_mem (v : ReadView) (mem : Mem) (buff : ℕ) (offset blen : Word) (a : ℕ) :
    (v.readInner mem buff offset blen).2 a =
      if buff ≤ a ∧ a < buff + v.count offset blen then v.content offset (a - buff)
      else mem a := by
  have hcount := v.readInner_count mem buff offset blen
  unfold readInner at hcount ⊢
  by_cases hout : offset.toInt < 0 ∨ v.size.toNat ≤ offset.toNat
  · simp only [hout, if_true] at hcount ⊢
    have hnone : ¬ (buff ≤ a ∧ a < buff + v.count offset blen) := by
      rw [← hcount]
      simp
    rw [if_neg hnone]
  · simp only [hout, if_false] at hcount ⊢
    rw [← hcount]
    by_cases hr : v.isRandom
    · simp only [hr, if_true, fillRandom_apply, content]
    · simp only [hr, content, Bool.false_eq_true, if_false, memset]

theorem count_le_blen (v : ReadView) (offset blen : Word) : v.count offset blen ≤ blen.toNat := by
  unfold count
  split_ifs
  · exact Nat.zero_le _
  · exact min_le_left _ _

theorem count_of_inside (v : ReadView) {offset : Word} (hoffset : 0 ≤ offset.toInt)
    (blen : Word) : v.count offset blen = min blen.toNat (v.size.toNat - offset.toNat) := by
  rw [count, if_neg (not_lt.mpr hoffset)]

theorem content_random {v : ReadView} (hrandom : v.isRandom = true) (offset : Word) (k : ℕ) :
    v.content offset k = topByte (lcg^[k + 1] (offset ^^^ v.ino)) := by
  rw [content, if_pos hrandom]

theorem readInner_prefix (v : ReadView) {offset blen blen' : Word} (mem mem' : Mem)
    (buff buff' : ℕ) (hle : blen.toNat ≤ blen'.toNat) {i : ℕ} (hi : i < v.count offset blen) :
    (v.readInner mem' buff' offset blen').2 (buff' + i) =
      (v.readInner mem buff offset blen).2 (buff + i) := by
  have hi' : i < v.count offset blen' := by
    rw [count] at hi ⊢
    split_ifs at hi ⊢ <;> omega
  rw [readInner_mem, readInner_mem, if_pos (by omega), if_pos (by omega), Nat.add_sub_cancel_left,
    Nat.add_sub_cancel_left]

end ReadView

/-- A random read inside the file stores the plain stream of the generator, one byte
for each step from the seed, stores nothing else, and starts as any longer read. -/
theorem readInner_random (v : ReadView) (hrandom : v.isRandom = true) (mem : Mem) (buff : ℕ)
    (offset blen : Word) (hoffset : 0 ≤ offset.toInt) :
    let n := min blen.toNat (v.size.toNat - offset.toNat)
    let r := v.readInner mem buff offset blen
    r.1.toNat = n ∧
      (∀ i < n, r.2 (buff + i) = topByte (lcg^[i + 1] (offset ^^^ v.ino))) ∧
      (∀ a, a < buff ∨ buff + n ≤ a → r.2 a = mem a) ∧
      ∀ (mem' : Mem) (buff' : ℕ) (blen' : Word), blen.toNat ≤ blen'.toNat →
        ∀ i < n, (v.readInner mem' buff' offset blen').2 (buff' + i) = r.2 (buff + i) := by
  intro n r
  have hn : v.count offset blen = n := v.count_of_inside hoffset blen
  refine ⟨(v.readInner_count mem buff offset blen).trans hn, fun i hi => ?_, fun a ha => ?_, ?_⟩
  · simp only [r]
    rw [ReadView.readInner_mem, hn, if_pos (by omega), Nat.add_sub_cancel_left,
      ReadView.content_random hrandom]
  · simp only [r]
    rw [ReadView.readInner_mem, hn, if_neg (by omega)]
  · intro mem' buff' blen' hle i hi
    exact v.readInner_prefix mem mem' buff buff' hle (hn ▸ hi)

theorem readInner_random_nine :
    let v : ReadView := { size := 10, isRandom := true, ino := 1 }
    (v.readInner (fun _ => 0) 0 0 9).2 (0 + 8) = topByte (lcg^[8 + 1] (0 ^^^ v.ino)) := by
  intro v
  exact (readInner_random v rfl (fun _ => 0) 0 0 9 (by decide)).2.1 8 (by decide)

end XrdBlackhole
