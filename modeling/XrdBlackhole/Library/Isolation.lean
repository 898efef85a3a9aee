import XrdBlackhole.Library.Machine

/-!
# Users who do not see each other

Two runs of one machine are compared. In the first one all users act, in the second one
a single user does. If a relation between the states survives the steps which both runs
make and the steps which only the first one makes, then the user gets alike answers in
both. The relation is indexed by what is left of a budget on which every step draws.
-/

namespace Machine

variable {σ ι ο : Type*} (M : Machine σ ι ο)

def observed (mine : ι → Bool) : σ → List ι → List ο
  | _, [] => []
  | s, i :: is =>
    if mine i then M.out s i :: observed mine (M.next s i) is else observed mine (M.next s i) is

def shared (τ : Type*) : Machine σ (τ × ι) ο := ⟨fun s i => M.step s i.2⟩

variable {M}

theorem exec_isolated {mine : ι → Bool} {ok : ι → Prop} {cost : ι → ℕ} {R : ℕ → σ → σ → Prop}
    {alike : ο → ο → Prop}
    (hmine : ∀ n s t i, ok i → mine i → R (n + cost i) s t →
      R n (M.next s i) (M.next t i) ∧ alike (M.out s i) (M.out t i))
    (hother : ∀ n s t i, ok i → ¬ mine i → R (n + cost i) s t → R n (M.next s i) t)
    {is : List ι} (his : ∀ i ∈ is, ok i) {n : ℕ} {s t : σ} (h : R (n + (is.map cost).sum) s t) :
    R n (M.exec s is) (M.exec t (is.filter mine)) ∧
      List.Forall₂ alike (M.observed mine s is) (M.outputs t (is.filter mine)) := by
  induction is generalizing s t with
  | nil => exact ⟨h, .nil⟩
  | cons i is ih =>
    obtain ⟨hi, his⟩ := List.forall_mem_cons.mp his
    rw [List.map_cons, List.sum_cons, Nat.add_comm (cost i), ← Nat.add_assoc] at h
    by_cases hm : mine i
    · obtain ⟨hnext, hout⟩ := hmine _ s t i hi hm h
      obtain ⟨hend, houts⟩ := ih his hnext
      rw [List.filter_cons_of_pos hm, observed, if_pos hm]
      exact ⟨hend, .cons hout houts⟩
    · rw [List.filter_cons_of_neg hm, observed, if_neg hm]
      exact ih his (hother _ s t i hi hm h)

end Machine
