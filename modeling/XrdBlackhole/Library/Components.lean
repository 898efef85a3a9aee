import Mathlib.Tactic

/-!
# The last component of a list and the lexicographic order

A list with a separator in it is cut in one way at the last one. Lists which agree
up to some point are ordered as their rests are.
-/

namespace Components

variable {α : Type*}

theorem exists_last {s : List α} {c : α} (h : c ∈ s) :
    ∃ pre name, s = pre ++ c :: name ∧ c ∉ name := by
  obtain ⟨as, bs, hsplit, has⟩ := List.eq_append_cons_of_mem (List.mem_reverse.mpr h)
  refine ⟨bs.reverse, as.reverse, ?_, by simpa using has⟩
  have hrev := congrArg List.reverse hsplit
  simpa using hrev

theorem last_unique {pre pre' name name' : List α} {c : α} (hname : c ∉ name) (hname' : c ∉ name')
    (h : pre ++ c :: name = pre' ++ c :: name') : pre = pre' ∧ name = name' := by
  rcases List.append_eq_append_iff.mp h with ⟨as, hpre, hrest⟩ | ⟨as, hpre, hrest⟩ <;>
    rcases as with _ | ⟨x, as⟩
  · exact ⟨by simpa using hpre.symm, (List.cons.inj hrest).2⟩
  · rw [(List.cons.inj hrest).2] at hname
    exact absurd (List.mem_append_right as List.mem_cons_self) hname
  · exact ⟨by simpa using hpre, ((List.cons.inj hrest).2).symm⟩
  · rw [(List.cons.inj hrest).2] at hname'
    exact absurd (List.mem_append_right as List.mem_cons_self) hname'

theorem compare_eq_lt_iff [Ord α] [LT α] [Std.LawfulEqOrd α]
    (hlt : ∀ x y : α, compare x y = .lt ↔ x < y) (a b : List α) :
    compare a b = .lt ↔ a < b := by
  induction a generalizing b with
  | nil => cases b <;> simp [List.compare_nil_cons]
  | cons x a ih =>
    cases b with
    | nil => simp [List.compare_cons_nil]
    | cons y b =>
      rw [List.compare_cons_cons, List.cons_lt_cons_iff, Ordering.then_eq_lt, hlt,
        Std.LawfulEqCmp.compare_eq_iff_eq, ih]

theorem append_lt_append_iff [LT α] [Std.Irrefl (α := α) (· < ·)] (p a b : List α) :
    p ++ a < p ++ b ↔ a < b := by
  induction p with
  | nil => rfl
  | cons c p ih => simp [ih]

end Components
