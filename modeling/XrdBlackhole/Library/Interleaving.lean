import XrdBlackhole.Library.Concurrent

/-!
# Methods without a lock

A method is a list of atomic actions on the shared state and a reply, both fixed when
it is called. Threads may change between any two actions. The actions which have been
done so far are, for each thread, the first ones of its calls.
-/

namespace Interleaving

open Concurrent

variable {τ σ ι α ο : Type*}

inductive Thread (α ο : Type*)
  | idle
  | inside (todo : List α) (o : ο)

def Thread.todo : Thread α ο → List α
  | idle => []
  | inside todo _ => todo

structure State (τ σ α ο : Type*) where
  shared : σ
  thread : τ → Thread α ο := fun _ => .idle

structure Methods (σ ι α ο : Type*) where
  acts : ι → List α
  reply : ι → ο
  apply : σ → α → σ

variable [DecidableEq τ]

def State.set (s : State τ σ α ο) (t : τ) (th : Thread α ο) : State τ σ α ο :=
  { s with thread := Function.update s.thread t th }

inductive Step (P : Methods σ ι α ο) (s : State τ σ α ο) :
    Option (Event τ ι ο) → State τ σ α ο → Prop
  | call {t : τ} (i : ι) : s.thread t = .idle →
      Step P s (some (.call t i)) (s.set t (.inside (P.acts i) (P.reply i)))
  | act {t : τ} {a : α} {todo : List α} {o : ο} : s.thread t = .inside (a :: todo) o →
      Step P s none { s.set t (.inside todo o) with shared := P.apply s.shared a }
  | ret {t : τ} {o : ο} : s.thread t = .inside [] o →
      Step P s (some (.ret t o)) (s.set t .idle)

def lts (P : Methods σ ι α ο) : Lts (State τ σ α ο) (Event τ ι ο) := ⟨Step P⟩

def Pending (P : Methods σ ι α ο) (past : List (Event τ ι ο)) (t : τ) : Thread α ο → Prop
  | .idle => True
  | .inside todo o => ∃ i, (calls t past).getLast? = some i ∧ o = P.reply i ∧ todo <:+ P.acts i

/-- `done` are the actions of a run, in order. -/
structure Performed (P : Methods σ ι α ο) (s₀ : σ) (past : List (Event τ ι ο))
    (s : State τ σ α ο) (done : List (τ × α)) : Prop where
  shared : s.shared = (done.map Prod.snd).foldl P.apply s₀
  parts : ∀ t, (calls t past).flatMap P.acts = opsOf t done ++ (s.thread t).todo
  pending : ∀ t, Pending P past t (s.thread t)
  returned : ∀ later t o earlier, past = later ++ .ret t o :: earlier →
    ∃ i, (calls t earlier).getLast? = some i ∧ o = P.reply i

section
variable {P : Methods σ ι α ο} {s₀ : σ} {past : List (Event τ ι ο)} {s : State τ σ α ο}
  {done : List (τ × α)} {t : τ}

theorem Performed.start : Performed P s₀ [] ({ shared := s₀ } : State τ σ α ο) [] :=
  ⟨rfl, fun _ => rfl, fun _ => trivial, fun _ _ _ _ hsplit => by simp at hsplit⟩

theorem Performed.call (h : Performed P s₀ past s done) (ht : s.thread t = .idle) (i : ι) :
    Performed P s₀ (.call t i :: past) (s.set t (.inside (P.acts i) (P.reply i))) done := by
  refine ⟨h.shared, fun u => ?_, fun u => ?_, fun later u o earlier hsplit => ?_⟩
  · have hpart := h.parts u
    by_cases hu : u = t
    · subst hu
      rw [ht, Thread.todo, List.append_nil] at hpart
      simp [State.set, calls, Thread.todo, hpart]
    · rw [calls, if_neg (Ne.symm hu), hpart]
      simp [State.set, Function.update_of_ne hu]
  · by_cases hu : u = t
    · subst hu
      simp [State.set, Pending, calls]
    · have hpending := h.pending u
      simp only [State.set, Function.update_of_ne hu]
      cases hth : s.thread u with
      | idle => trivial
      | inside todo o =>
        rw [hth] at hpending
        rwa [Pending, calls, if_neg (Ne.symm hu)]
  · cases later with
    | nil => cases hsplit
    | cons e later => exact h.returned later u o earlier (List.cons.inj hsplit).2

theorem Performed.act (h : Performed P s₀ past s done) {a : α} {todo : List α} {o : ο}
    (ht : s.thread t = .inside (a :: todo) o) :
    Performed P s₀ past { s.set t (.inside todo o) with shared := P.apply s.shared a }
      (done ++ [(t, a)]) := by
  refine ⟨?_, fun u => ?_, fun u => ?_, h.returned⟩
  · change P.apply s.shared a = _
    rw [h.shared, List.map_append, List.foldl_append]
    rfl
  · have hpart := h.parts u
    by_cases hu : u = t
    · subst hu
      rw [ht, Thread.todo] at hpart
      rw [hpart, opsOf_concat_self, List.append_assoc]
      simp [State.set, Thread.todo]
    · rw [hpart, opsOf_concat_of_ne (Ne.symm hu)]
      simp [State.set, Function.update_of_ne hu]
  · have hpending := h.pending u
    by_cases hu : u = t
    · subst hu
      rw [ht] at hpending
      obtain ⟨i, hlast, ho, hsuffix⟩ := hpending
      simp only [State.set, Function.update_self]
      exact ⟨i, hlast, ho, (List.suffix_cons a todo).trans hsuffix⟩
    · simpa only [State.set, Function.update_of_ne hu] using hpending

theorem Performed.ret (h : Performed P s₀ past s done) {o : ο} (ht : s.thread t = .inside [] o) :
    Performed P s₀ (.ret t o :: past) (s.set t .idle) done := by
  refine ⟨h.shared, fun u => ?_, fun u => ?_, fun later u o' earlier hsplit => ?_⟩
  · have hpart := h.parts u
    by_cases hu : u = t
    · subst hu
      rw [ht] at hpart
      simpa [State.set, calls, Thread.todo] using hpart
    · simp only [State.set, Function.update_of_ne hu]
      exact hpart
  · by_cases hu : u = t
    · subst hu
      simp [State.set, Pending]
    · simp only [State.set, Function.update_of_ne hu]
      exact h.pending u
  · cases later with
    | nil =>
      obtain ⟨hevent, rfl⟩ := List.cons.inj hsplit
      obtain ⟨rfl, rfl⟩ := Event.ret.inj hevent
      have hpending := h.pending t
      rw [ht] at hpending
      obtain ⟨i, hlast, ho, -⟩ := hpending
      exact ⟨i, hlast, ho⟩
    | cons e later => exact h.returned later u o' earlier (List.cons.inj hsplit).2

theorem run_performed (hrun : (lts P).Run { shared := s₀ } past s) :
    ∃ done, Performed P s₀ past s done := by
  refine hrun.invariant (I := fun past s => ∃ done, Performed P s₀ past s done) ?_ ?_ ⟨[], .start⟩
  · rintro past b c ⟨done, hb⟩ hstep
    cases hstep with
    | act ht => exact ⟨_, hb.act ht⟩
  · rintro past b c e ⟨done, hb⟩ hstep
    cases hstep with
    | call i ht => exact ⟨_, hb.call ht i⟩
    | ret ht => exact ⟨_, hb.ret ht⟩

theorem acts_run (todo : List α) (o : ο) (ht : s.thread t = .inside todo o) :
    (lts (ι := ι) P).Run s []
      { s.set t (.inside [] o) with shared := todo.foldl P.apply s.shared } := by
  induction todo generalizing s with
  | nil =>
    have hsame : s.set t (.inside [] o) = s := by
      rw [State.set, ← ht, Function.update_eq_self]
    change (lts P).Run s [] (s.set t (.inside [] o))
    rw [hsame]
    exact .start
  | cons a todo ih =>
    have hrest := ih (s := { s.set t (.inside todo o) with shared := P.apply s.shared a })
      (Function.update_self ..)
    simp only [State.set, Function.update_idem] at hrest
    have hstep : (lts (ι := ι) P).step s none
        { s.set t (.inside todo o) with shared := P.apply s.shared a } := Step.act ht
    exact Lts.Run.trans (.silent .start hstep) hrest

theorem overlap_run (P : Methods σ ι α ο) (s₀ : σ) {u : τ} (hne : u ≠ t) (i j : ι) :
    ∃ s, (∀ v, s.thread v = .idle) ∧ (lts P).Run { shared := s₀ }
      [.ret t (P.reply i), .ret u (P.reply j), .call u j, .call t i] s := by
  have hcall : (lts P).Run { shared := s₀ } [.call t i] _ := .event .start (.call i rfl)
  have hother := hcall.event (.call (t := u) j (by simp [State.set, hne]))
  have hlater := hother.trans (acts_run (P.acts j) (P.reply j) (t := u)
    (by simp [State.set]))
  have hfirst := hlater.trans (acts_run (P.acts i) (P.reply i) (t := t)
    (by simp [State.set, hne.symm]))
  have hret := hfirst.event (.ret (t := u) (o := P.reply j) (by simp [State.set, hne]))
  have hret' := hret.event (.ret (t := t) (o := P.reply i) (by simp [State.set, hne.symm]))
  refine ⟨_, fun v => ?_, hret'⟩
  simp only [State.set, Function.update_apply]
  split_ifs <;> rfl

def serial (P : Methods σ ι α ο) (past : List (Event τ ι ο)) : List (τ × α) :=
  (callOps past).flatMap fun op => (P.acts op.2).map fun a => (op.1, a)

theorem opsOf_map (u v : τ) (as : List α) :
    opsOf u (as.map fun a => (v, a)) = if v = u then as else [] := by
  induction as with
  | nil => exact (ite_self _).symm
  | cons a as ih =>
    rw [List.map_cons, opsOf, ih]
    split_ifs <;> rfl

theorem opsOf_serial (past : List (Event τ ι ο)) (u : τ) :
    opsOf u (serial P past) = (calls u past).flatMap P.acts := by
  rw [← opsOf_callOps, serial]
  induction callOps past with
  | nil => rfl
  | cons op ops ih =>
    rw [List.flatMap_cons, opsOf_append, opsOf_map, ih, opsOf]
    split_ifs <;> simp

/-- When no call is pending, the actions are those of the calls made one by one, up to
their order. -/
theorem Performed.perm_serial (h : Performed P s₀ past s done)
    (hidle : ∀ t, s.thread t = .idle) : done.Perm (serial P past) := by
  refine perm_of_opsOf fun u => ?_
  have hpart := h.parts u
  rw [hidle u, Thread.todo, List.append_nil] at hpart
  rw [opsOf_serial, hpart]

/-- What only the actions of one thread can change, they decide alone. -/
theorem foldl_eq_opsOf {β : Type*} (view : σ → β) (t : τ) {ops : List (τ × α)}
    (hview : ∀ s s' a, view s = view s' → view (P.apply s a) = view (P.apply s' a))
    (hother : ∀ op ∈ ops, op.1 ≠ t → ∀ s, view (P.apply s op.2) = view s) {s s' : σ}
    (hs : view s = view s') :
    view ((ops.map Prod.snd).foldl P.apply s) = view ((opsOf t ops).foldl P.apply s') := by
  induction ops generalizing s s' with
  | nil => exact hs
  | cons op ops ih =>
    have hrest : ∀ op' ∈ ops, op'.1 ≠ t → ∀ s, view (P.apply s op'.2) = view s :=
      fun op' hop => hother op' (List.mem_cons_of_mem _ hop)
    rw [List.map_cons, List.foldl_cons, opsOf]
    split_ifs with hop
    · exact ih hrest (hview s s' op.2 hs)
    · exact ih hrest ((hother op List.mem_cons_self hop s).trans hs)

end

end Interleaving
