import XrdBlackhole.Library.Machine

/-!
# Labelled transition systems

A step is silent or says one event. A run keeps the events which it has said, newest
first. A forward simulation carries every run over to a run with the same events.
-/

structure Lts (σ ε : Type*) where
  step : σ → Option ε → σ → Prop

namespace Lts

variable {σ α ε : Type*}

inductive Run (L : Lts σ ε) (s : σ) : List ε → σ → Prop
  | start : Run L s [] s
  | silent {past : List ε} {t u : σ} : Run L s past t → L.step t none u → Run L s past u
  | event {past : List ε} {t u : σ} {e : ε} :
      Run L s past t → L.step t (some e) u → Run L s (e :: past) u

/-- `A` can follow every step of `L` by one with the same label, or by none if it is
silent. -/
structure Simulates (L : Lts σ ε) (A : Lts α ε) (R : σ → α → Prop) : Prop where
  event {s s' : σ} {a : α} {e : ε} : R s a → L.step s (some e) s' →
    ∃ a', R s' a' ∧ A.step a (some e) a'
  silent {s s' : σ} {a : α} : R s a → L.step s none s' →
    ∃ a', R s' a' ∧ (a' = a ∨ A.step a none a')

section
variable {L : Lts σ ε} {A : Lts α ε} {R : σ → α → Prop} {s s' : σ} {a : α} {past : List ε}

theorem Simulates.run (h : L.Simulates A R) (hs : R s a) (hrun : L.Run s past s') :
    ∃ a', R s' a' ∧ A.Run a past a' := by
  induction hrun with
  | start => exact ⟨a, hs, .start⟩
  | silent _ hstep ih =>
    obtain ⟨b, hb, hrun⟩ := ih
    obtain ⟨c, hc, rfl | hstep⟩ := h.silent hb hstep
    · exact ⟨c, hc, hrun⟩
    · exact ⟨c, hc, hrun.silent hstep⟩
  | event _ hstep ih =>
    obtain ⟨b, hb, hrun⟩ := ih
    obtain ⟨c, hc, hstep⟩ := h.event hb hstep
    exact ⟨c, hc, hrun.event hstep⟩

theorem Run.trans {past' : List ε} {s'' : σ} (h : L.Run s past s') (h' : L.Run s' past' s'') :
    L.Run s (past' ++ past) s'' := by
  induction h' with
  | start => exact h
  | silent _ hstep ih => exact ih.silent hstep
  | event _ hstep ih => exact ih.event hstep

theorem Run.invariant {I : List ε → σ → Prop}
    (hsilent : ∀ past t u, I past t → L.step t none u → I past u)
    (hevent : ∀ past t u e, I past t → L.step t (some e) u → I (e :: past) u)
    (hs : I [] s) (hrun : L.Run s past s') : I past s' := by
  induction hrun with
  | start => exact hs
  | silent _ hstep ih => exact hsilent _ _ _ ih hstep
  | event _ hstep ih => exact hevent _ _ _ _ ih hstep

end

/-- A machine whose every step a system can follow, as long as a gauge which the step
moves by at most its weight stays below `bound`: the system has a run with the history
of the machine. -/
theorem run_of_machine {ι ο : Type*} {M : Machine σ ι ο} {A : Lts α (ι × ο)} {R : σ → α → Prop}
    {G : ι → Prop} (gauge : σ → ℕ) (weight : σ → ι → ℕ) (bound : ℕ)
    (hstep : ∀ s a i, R s a → G i → gauge s + weight s i < bound →
      gauge (M.next s i) ≤ gauge s + weight s i ∧
        ∃ a', R (M.next s i) a' ∧ A.step a (some (i, M.out s i)) a')
    {s : σ} {a₀ a : α} {past : List (ι × ο)} (hs : R s a) (hpast : A.Run a₀ past a) {is : List ι}
    (hG : ∀ i ∈ is, G i) (hbound : gauge s + M.total weight s is < bound) :
    ∃ a', R (M.exec s is) a' ∧ A.Run a₀ (M.logged.exec (s, past) is).2 a' := by
  induction is generalizing s a past with
  | nil => exact ⟨a, hs, hpast⟩
  | cons i is ih =>
    rw [Machine.total] at hbound
    obtain ⟨hgauge, b, hb, hnext⟩ := hstep s a i hs (hG i List.mem_cons_self) (by omega)
    exact ih hb (hpast.event hnext) (fun j hj => hG j (List.mem_cons_of_mem i hj)) (by omega)

end Lts
