import Mathlib.Tactic

/-!
# Deterministic machines and their runs

A machine answers every input with an output. The run on a list of inputs ends in
`exec`. `Always` and `EveryStep` speak about all states and all steps of the run.
The logged machine also keeps its history, newest first, so that a quantity which
the machine does not store (a total, the latest request) is a recursive function
of the logged state.
-/

structure Machine (σ ι ο : Type*) where
  step : σ → ι → σ × ο

namespace Machine

abbrev History (ι ο : Type*) := List (ι × ο)

variable {σ ι ο : Type*} (M : Machine σ ι ο)

def next (s : σ) (i : ι) : σ := (M.step s i).1
def out (s : σ) (i : ι) : ο := (M.step s i).2

def exec : σ → List ι → σ
  | s, [] => s
  | s, i :: is => exec (M.next s i) is

def outputs : σ → List ι → List ο
  | _, [] => []
  | s, i :: is => M.out s i :: outputs (M.next s i) is

def logged : Machine (σ × History ι ο) ι ο :=
  ⟨fun s i => ((M.next s.1 i, (i, M.out s.1 i) :: s.2), M.out s.1 i)⟩

def Always (P : σ → Prop) : σ → List ι → Prop
  | s, [] => P s
  | s, i :: is => P s ∧ Always P (M.next s i) is

def EveryStep (G : σ → ι → Prop) : σ → List ι → Prop
  | _, [] => True
  | s, i :: is => G s i ∧ EveryStep G (M.next s i) is

def total (weight : σ → ι → ℕ) : σ → List ι → ℕ
  | _, [] => 0
  | s, i :: is => weight s i + total weight (M.next s i) is

def latest {α : Type*} (f : σ → ι → Option α) : σ → List ι → Option α
  | _, [] => none
  | s, i :: is => (latest f (M.next s i) is).or (f s i)

variable {M}

theorem exec_append (s : σ) (is js : List ι) :
    M.exec s (is ++ js) = M.exec (M.exec s is) js := by
  induction is generalizing s with
  | nil => rfl
  | cons i is ih => exact ih (M.next s i)

theorem outputs_append (s : σ) (is js : List ι) :
    M.outputs s (is ++ js) = M.outputs s is ++ M.outputs (M.exec s is) js := by
  induction is generalizing s with
  | nil => rfl
  | cons i is ih => exact congrArg (M.out s i :: ·) (ih (M.next s i))

@[simp] theorem length_outputs (s : σ) (is : List ι) : (M.outputs s is).length = is.length := by
  induction is generalizing s with
  | nil => rfl
  | cons i is ih => exact congrArg (· + 1) (ih (M.next s i))

theorem outputs_getElem? (s : σ) (is : List ι) (i : ι) (js : List ι) :
    (M.outputs s (is ++ i :: js))[is.length]? = some (M.out (M.exec s is) i) := by
  rw [outputs_append, List.getElem?_append_right (by simp), length_outputs, Nat.sub_self]
  rfl

theorem everyStep_append (G : σ → ι → Prop) (s : σ) (is js : List ι) :
    M.EveryStep G s (is ++ js) ↔ M.EveryStep G s is ∧ M.EveryStep G (M.exec s is) js := by
  induction is generalizing s with
  | nil => exact (and_iff_right trivial).symm
  | cons i is ih => exact (and_congr_right fun _ => ih (M.next s i)).trans and_assoc.symm

theorem latest_append {α : Type*} (f : σ → ι → Option α) (s : σ) (is js : List ι) :
    M.latest f s (is ++ js) = (M.latest f (M.exec s is) js).or (M.latest f s is) := by
  induction is generalizing s with
  | nil => exact Option.or_none.symm
  | cons i is ih =>
    rw [List.cons_append, latest, latest, ih, Option.or_assoc]
    rfl

theorem exec_invariant {I : σ → Prop} (hstep : ∀ s i, I s → I (M.next s i))
    {s : σ} (hs : I s) (is : List ι) : I (M.exec s is) := by
  induction is generalizing s with
  | nil => exact hs
  | cons i is ih => exact ih (hstep s i hs)

theorem exec_invariant_of {I : σ → Prop} {G : σ → ι → Prop}
    (hstep : ∀ s i, I s → G s i → I (M.next s i)) {s : σ} (hs : I s) {is : List ι}
    (hG : M.EveryStep G s is) : I (M.exec s is) := by
  induction is generalizing s with
  | nil => exact hs
  | cons i is ih => exact ih (hstep s i hs hG.1) hG.2

/-- An invariant which a step keeps as long as a gauge stays below `bound`, where
every step moves the gauge by its weight. -/
theorem exec_invariant_of_total {I : σ → Prop} (gauge : σ → ℕ) {weight : σ → ι → ℕ} {bound : ℕ}
    (hstep : ∀ s i, I s → gauge s + weight s i < bound →
      I (M.next s i) ∧ gauge (M.next s i) = gauge s + weight s i)
    {s : σ} (hs : I s) {is : List ι} (htotal : gauge s + M.total weight s is < bound) :
    I (M.exec s is) := by
  induction is generalizing s with
  | nil => exact hs
  | cons i is ih =>
    rw [total] at htotal
    obtain ⟨hnext, hgauge⟩ := hstep s i hs (by omega)
    exact ih hnext (by omega)

theorem exec_gauge_of_total {I : σ → Prop} (gauge : σ → ℕ) {weight : σ → ι → ℕ} {bound : ℕ}
    (hstep : ∀ s i, I s → gauge s + weight s i < bound →
      I (M.next s i) ∧ gauge (M.next s i) = gauge s + weight s i)
    {s : σ} (hs : I s) {is : List ι} (htotal : gauge s + M.total weight s is < bound) :
    gauge (M.exec s is) = gauge s + M.total weight s is := by
  induction is generalizing s with
  | nil => rfl
  | cons i is ih =>
    rw [total] at htotal ⊢
    obtain ⟨hnext, hgauge⟩ := hstep s i hs (by omega)
    rw [exec, ih hnext (by omega), hgauge, Nat.add_assoc]

theorem total_le_length {weight : σ → ι → ℕ} (hweight : ∀ s i, weight s i ≤ 1) (s : σ)
    (is : List ι) : M.total weight s is ≤ is.length := by
  induction is generalizing s with
  | nil => exact le_rfl
  | cons i is ih =>
    have hone := hweight s i
    have hrest := ih (M.next s i)
    rw [total, List.length_cons]
    omega

theorem total_eq_zero_iff (weight : σ → ι → ℕ) (s : σ) (is : List ι) :
    M.total weight s is = 0 ↔ M.EveryStep (fun s i => weight s i = 0) s is := by
  induction is generalizing s with
  | nil => exact iff_of_true rfl trivial
  | cons i is ih => rw [total, EveryStep, ← ih, Nat.add_eq_zero_iff]

theorem everyStep_of_forall {G : σ → ι → Prop} (hG : ∀ s i, G s i) (s : σ) (is : List ι) :
    M.EveryStep G s is := by
  induction is generalizing s with
  | nil => trivial
  | cons i is ih => exact ⟨hG s i, ih (M.next s i)⟩

theorem everyStep_of_mem {G : ι → Prop} {is : List ι} (hG : ∀ i ∈ is, G i) (s : σ) :
    M.EveryStep (fun _ i => G i) s is := by
  induction is generalizing s with
  | nil => trivial
  | cons i is ih =>
    exact ⟨hG i List.mem_cons_self, ih (fun j hj => hG j (List.mem_cons_of_mem _ hj)) (M.next s i)⟩

theorem everyStep_of_invariant {I : σ → Prop} {G P : σ → ι → Prop}
    (hI : ∀ s i, I s → G s i → I (M.next s i)) (hP : ∀ s i, I s → G s i → P s i)
    {s : σ} (hs : I s) {is : List ι} (hG : M.EveryStep G s is) : M.EveryStep P s is := by
  induction is generalizing s with
  | nil => trivial
  | cons i is ih => exact ⟨hP s i hs hG.1, ih (hI s i hs hG.1) hG.2⟩

theorem everyStep_congr {I : σ → Prop} {P G : σ → ι → Prop}
    (hI : ∀ s i, I s → I (M.next s i)) (hiff : ∀ s i, I s → (P s i ↔ G s i))
    {s : σ} (hs : I s) (is : List ι) : M.EveryStep P s is ↔ M.EveryStep G s is := by
  induction is generalizing s with
  | nil => exact Iff.rfl
  | cons i is ih => exact and_congr (hiff s i hs) (ih (hI s i hs))

/-- If a step keeps `P` exactly when it meets `G` and never restores `P`, then `P`
holds at the end of a run exactly when it held at the start and every step met `G`. -/
theorem exec_iff_everyStep {I P : σ → Prop} {G : σ → ι → Prop}
    (hI : ∀ s i, I s → I (M.next s i))
    (hstep : ∀ s i, I s → (P (M.next s i) ↔ P s ∧ G s i))
    {s : σ} (hs : I s) (is : List ι) : P (M.exec s is) ↔ P s ∧ M.EveryStep G s is := by
  induction is generalizing s with
  | nil => simp [exec, EveryStep]
  | cons i is ih => rw [exec, ih (hI s i hs), hstep s i hs, EveryStep, and_assoc]

theorem Always.start {P : σ → Prop} {s : σ} {is : List ι} (h : M.Always P s is) : P s := by
  cases is with
  | nil => exact h
  | cons i is => exact h.1

/-- If, under an invariant `I` and on steps in `D`, a step keeps `P` exactly when
it meets `G`, then `P` holds throughout a run exactly when every step meets `G`. -/
theorem always_iff_everyStep {I P : σ → Prop} {D G : σ → ι → Prop}
    (hI : ∀ s i, I s → I (M.next s i))
    (hstep : ∀ s i, I s → P s → D s i → (P (M.next s i) ↔ G s i))
    {s : σ} (hs : I s) (hP : P s) {is : List ι} (hD : M.EveryStep D s is) :
    M.Always P s is ↔ M.EveryStep G s is := by
  induction is generalizing s with
  | nil => simpa [Always, EveryStep] using hP
  | cons i is ih =>
    have hiff := hstep s i hs hP hD.1
    refine ⟨fun h => ?_, fun h => ?_⟩
    · have hnext : P (M.next s i) := h.2.start
      exact ⟨hiff.mp hnext, (ih (hI s i hs) hnext hD.2).mp h.2⟩
    · have hnext : P (M.next s i) := hiff.mpr h.1
      exact ⟨hP, (ih (hI s i hs) hnext hD.2).mpr h.2⟩

theorem exec_logged_fst (s : σ) (past : History ι ο) (is : List ι) :
    (M.logged.exec (s, past) is).1 = M.exec s is := by
  induction is generalizing s past with
  | nil => rfl
  | cons i is ih => exact ih (M.next s i) ((i, M.out s i) :: past)

theorem everyStep_logged (G : σ → ι → Prop) (s : σ) (past : History ι ο) (is : List ι) :
    M.logged.EveryStep (fun t => G t.1) (s, past) is ↔ M.EveryStep G s is := by
  induction is generalizing s past with
  | nil => exact Iff.rfl
  | cons i is ih => exact and_congr Iff.rfl (ih (M.next s i) ((i, M.out s i) :: past))

end Machine
