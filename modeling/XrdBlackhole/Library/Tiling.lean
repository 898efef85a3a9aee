import Mathlib.Tactic
import Mathlib.Algebra.BigOperators.Intervals

/-!
# Tilings of an initial segment

A block is a start with a length. Blocks tile `[0, n)` when they cover each of its
points once and no other point. Then their lengths add up to `n`, in whatever
order they are listed.
-/

open scoped BigOperators

abbrev Block := ℕ × ℕ

namespace Block

def Covers (b : Block) (x : ℕ) : Prop := b.1 ≤ x ∧ x < b.1 + b.2

instance (b : Block) (x : ℕ) : Decidable (b.Covers x) := inferInstanceAs (Decidable (_ ∧ _))

def Tiles (n : ℕ) (bs : List Block) : Prop :=
  ∀ x, bs.countP (fun b => b.Covers x) = if x < n then 1 else 0

theorem sum_covers {N : ℕ} {b : Block} (hb : b.1 + b.2 ≤ N) :
    ∑ x ∈ Finset.range N, (if b.Covers x then 1 else 0) = b.2 := by
  have hset : (Finset.range N).filter b.Covers = Finset.Ico b.1 (b.1 + b.2) := by
    ext x
    simp only [Finset.mem_filter, Finset.mem_range, Finset.mem_Ico, Covers]
    omega
  rw [← Finset.card_filter, hset, Nat.card_Ico]
  omega

theorem sum_countP {N : ℕ} {bs : List Block} (hbs : ∀ b ∈ bs, b.1 + b.2 ≤ N) :
    ∑ x ∈ Finset.range N, bs.countP (fun b => b.Covers x) = (bs.map Prod.snd).sum := by
  induction bs with
  | nil => simp
  | cons b bs ih =>
    have hb := sum_covers (hbs b List.mem_cons_self)
    have hrest := ih fun c hc => hbs c (List.mem_cons_of_mem b hc)
    simp only [List.countP_cons, decide_eq_true_eq, Finset.sum_add_distrib, hrest, hb,
      List.map_cons, List.sum_cons]
    omega

theorem exists_bound (bs : List Block) : ∃ N, ∀ b ∈ bs, b.1 + b.2 ≤ N := by
  induction bs with
  | nil => exact ⟨0, by simp⟩
  | cons b bs ih =>
    obtain ⟨N, hN⟩ := ih
    refine ⟨max (b.1 + b.2) N, fun c hc => ?_⟩
    rcases List.mem_cons.mp hc with rfl | hc
    · exact le_max_left _ _
    · exact (hN c hc).trans (le_max_right _ _)

theorem Tiles.sum_length {n : ℕ} {bs : List Block} (h : Tiles n bs) :
    (bs.map Prod.snd).sum = n := by
  obtain ⟨N, hN⟩ := exists_bound bs
  have hbound : ∀ b ∈ bs, b.1 + b.2 ≤ max N n := fun b hb => (hN b hb).trans (le_max_left _ _)
  have hset : (Finset.range (max N n)).filter (· < n) = Finset.range n := by
    ext x
    simp only [Finset.mem_filter, Finset.mem_range]
    omega
  rw [← sum_countP hbound, Finset.sum_congr rfl fun x _ => h x, ← Finset.card_filter, hset,
    Finset.card_range]

end Block
