import XrdBlackhole.Library.Concurrent

/-!
# Objects whose methods run under one mutex

A method is a program which touches the shared state one access at a time. Threads
call methods, wait for the mutex, run and return. An interleaving may change threads
at every access. If each method alone computes the step of a machine, then every
interleaving is explained by one order in which the calls were made as whole steps.
-/

universe v

/-- A program which ends in a value, or goes on after an access to the shared state. -/
inductive Prog (σ : Type*) (ρ : Type*)
  | ret (r : ρ)
  | act (upd : σ → σ) (next : σ → Prog σ ρ)

namespace Prog

variable {σ : Type*} {α β : Type v}

def run : Prog σ α → σ → σ × α
  | ret r, s => (s, r)
  | act upd next, s => (next s).run (upd s)

def bind : Prog σ α → (α → Prog σ β) → Prog σ β
  | ret r, k => k r
  | act upd next, k => act upd fun s => (next s).bind k

instance : Monad (Prog σ) where
  pure := ret
  bind := bind

def get (f : σ → α) : Prog σ α := act id fun s => ret (f s)

def modify (f : σ → σ) : Prog σ PUnit := act f fun _ => ret ⟨⟩

@[simp] theorem run_pure (a : α) (s : σ) : (pure a : Prog σ α).run s = (s, a) := rfl

@[simp] theorem run_bind (p : Prog σ α) (k : α → Prog σ β) (s : σ) :
    (p >>= k).run s = (k (p.run s).2).run (p.run s).1 := by
  change (p.bind k).run s = _
  induction p generalizing s with
  | ret r => rfl
  | act upd next ih => exact ih s (upd s)

@[simp] theorem run_get (f : σ → α) (s : σ) : (get f).run s = (s, f s) := rfl

@[simp] theorem run_modify (f : σ → σ) (s : σ) : (modify f).run s = (f s, ⟨⟩) := rfl

end Prog

namespace Monitor

open Concurrent

variable {τ σ ι : Type*} {ο : Type v}

inductive Thread (σ ι : Type*) (ο : Type v)
  | idle
  | called (i : ι)
  | inside (p : Prog σ ο)
  | done (o : ο)

structure State (τ σ ι : Type*) (ο : Type v) where
  shared : σ
  owner : Option τ := none
  thread : τ → Thread σ ι ο := fun _ => .idle

/-- A thread of the monitor follows one of the atomic object. What is left to do
inside the mutex ends as the whole step from `before` does. -/
inductive Matches (M : Machine σ ι ο) (before now : σ) (owner : Option τ) (t : τ) :
    Thread σ ι ο → Atomic.Thread ι ο → Prop
  | idle : owner ≠ some t → Matches M before now owner t .idle .idle
  | called (i : ι) : owner ≠ some t → Matches M before now owner t (.called i) (.called i)
  | inside (p : Prog σ ο) (i : ι) : owner = some t → p.run now = M.step before i →
      Matches M before now owner t (.inside p) (.called i)
  | done (o : ο) : owner ≠ some t → Matches M before now owner t (.done o) (.done o)

structure Tracks (M : Machine σ ι ο) (s₀ : σ) (s : State τ σ ι ο) (a : Atomic.State τ ι ο) :
    Prop where
  thread : ∀ t, Matches M (a.shared M s₀) s.shared s.owner t (s.thread t) (a.thread t)
  free : s.owner = none → s.shared = a.shared M s₀

section
variable {M : Machine σ ι ο} {s₀ before before' now now' : σ} {owner : Option τ} {t : τ}
  {th : Thread σ ι ο} {ath : Atomic.Thread ι ο} {s : State τ σ ι ο} {a : Atomic.State τ ι ο}

theorem Matches.frame (h : Matches M before now owner t th ath) {owner' : Option τ}
    (hout : owner ≠ some t) (hout' : owner' ≠ some t) :
    Matches M before' now' owner' t th ath := by
  cases h with
  | idle _ => exact .idle hout'
  | called i _ => exact .called i hout'
  | inside p i howner _ => exact absurd howner hout
  | done o _ => exact .done o hout'

theorem Tracks.start : Tracks M s₀ ({ shared := s₀ } : State τ σ ι ο) {} :=
  ⟨fun _ => .idle nofun, fun _ => rfl⟩

theorem Tracks.owner_of_inside (h : Tracks M s₀ s a) {p : Prog σ ο}
    (ht : s.thread t = .inside p) :
    s.owner = some t ∧ ∃ i, a.thread t = .called i ∧ p.run s.shared = M.step (a.shared M s₀) i := by
  have hmatch := h.thread t
  rw [ht] at hmatch
  generalize ha : a.thread t = ath at hmatch
  cases hmatch with
  | inside _ i howner hrun => exact ⟨howner, i, rfl, hrun⟩

theorem Tracks.inside_unique (h : Tracks M s₀ s a) {u : τ} {p q : Prog σ ο}
    (ht : s.thread t = .inside p) (hu : s.thread u = .inside q) : t = u := by
  have htu : some t = some u := (h.owner_of_inside ht).1.symm.trans (h.owner_of_inside hu).1
  exact Option.some.inj htu

end

variable [DecidableEq τ]

def State.set (s : State τ σ ι ο) (t : τ) (th : Thread σ ι ο) : State τ σ ι ο :=
  { s with thread := Function.update s.thread t th }

inductive Step (prog : ι → Prog σ ο) (s : State τ σ ι ο) :
    Option (Event τ ι ο) → State τ σ ι ο → Prop
  | call {t : τ} (i : ι) : s.thread t = .idle →
      Step prog s (some (.call t i)) (s.set t (.called i))
  | lock {t : τ} {i : ι} : s.thread t = .called i → s.owner = none →
      Step prog s none { s.set t (.inside (prog i)) with owner := some t }
  | access {t : τ} {upd : σ → σ} {next : σ → Prog σ ο} : s.thread t = .inside (.act upd next) →
      Step prog s none { s.set t (.inside (next s.shared)) with shared := upd s.shared }
  | unlock {t : τ} {o : ο} : s.thread t = .inside (.ret o) →
      Step prog s none { s.set t (.done o) with owner := none }
  | ret {t : τ} {o : ο} : s.thread t = .done o →
      Step prog s (some (.ret t o)) (s.set t .idle)

def lts (prog : ι → Prog σ ο) : Lts (State τ σ ι ο) (Event τ ι ο) := ⟨Step prog⟩

section
variable {M : Machine σ ι ο} {s₀ : σ} {t : τ} {s : State τ σ ι ο} {a : Atomic.State τ ι ο}
  {prog : ι → Prog σ ο}

theorem Tracks.call (h : Tracks M s₀ s a) (i : ι) (ht : s.thread t = .idle) :
    a.thread t = .idle ∧ Tracks M s₀ (s.set t (.called i)) (a.set t (.called i)) := by
  have hmatch := h.thread t
  rw [ht] at hmatch
  generalize ha : a.thread t = ath at hmatch
  cases hmatch with
  | idle hout =>
    refine ⟨rfl, fun u => ?_, h.free⟩
    by_cases hu : u = t
    · subst hu
      simpa only [State.set, Atomic.State.set, Function.update_self] using .called i hout
    · simp only [State.set, Atomic.State.set, Function.update_of_ne hu]
      exact h.thread u

theorem Tracks.ret (h : Tracks M s₀ s a) {o : ο} (ht : s.thread t = .done o) :
    a.thread t = .done o ∧ Tracks M s₀ (s.set t .idle) (a.set t .idle) := by
  have hmatch := h.thread t
  rw [ht] at hmatch
  generalize ha : a.thread t = ath at hmatch
  cases hmatch with
  | done _ hout =>
    refine ⟨rfl, fun u => ?_, h.free⟩
    by_cases hu : u = t
    · subst hu
      simpa only [State.set, Atomic.State.set, Function.update_self] using .idle hout
    · simp only [State.set, Atomic.State.set, Function.update_of_ne hu]
      exact h.thread u

theorem Tracks.lock (h : Tracks M s₀ s a) (hprog : ∀ i s, (prog i).run s = M.step s i) {i : ι}
    (ht : s.thread t = .called i) (hfree : s.owner = none) :
    Tracks M s₀ { s.set t (.inside (prog i)) with owner := some t } a := by
  refine ⟨fun u => ?_, nofun⟩
  have hmatch := h.thread u
  by_cases hu : u = t
  · subst hu
    rw [ht] at hmatch
    simp only [State.set, Function.update_self]
    generalize a.thread u = ath at hmatch
    cases hmatch with
    | called _ _ =>
      refine .inside _ i rfl ?_
      rw [hprog, h.free hfree]
  · simp only [State.set, Function.update_of_ne hu]
    exact hmatch.frame (by simp [hfree]) fun heq => hu (Option.some.inj heq).symm

theorem Tracks.access (h : Tracks M s₀ s a) {upd : σ → σ} {next : σ → Prog σ ο}
    (ht : s.thread t = .inside (.act upd next)) :
    Tracks M s₀ { s.set t (.inside (next s.shared)) with shared := upd s.shared } a := by
  obtain ⟨howner, i, ha, hrun⟩ := h.owner_of_inside ht
  refine ⟨fun u => ?_, fun hfree => ?_⟩
  · by_cases hu : u = t
    · subst hu
      simp only [State.set, Function.update_self]
      rw [ha]
      exact .inside _ i howner hrun
    · simp only [State.set, Function.update_of_ne hu]
      have hout : s.owner ≠ some u := by
        rw [howner]
        exact fun heq => hu (Option.some.inj heq).symm
      exact (h.thread u).frame hout hout
  · change s.owner = none at hfree
    rw [howner] at hfree
    cases hfree

theorem Tracks.unlock (h : Tracks M s₀ s a) {o : ο} (ht : s.thread t = .inside (.ret o)) :
    ∃ i, a.thread t = .called i ∧ M.out (a.shared M s₀) i = o ∧
      Tracks M s₀ { s.set t (.done o) with owner := none }
        { a.set t (.done o) with ops := a.ops ++ [(t, i)] } := by
  obtain ⟨howner, i, ha, hrun⟩ := h.owner_of_inside ht
  have hnext : s.shared = M.next (a.shared M s₀) i := congrArg Prod.fst hrun
  have hout : o = M.out (a.shared M s₀) i := congrArg Prod.snd hrun
  refine ⟨i, ha, hout.symm, fun u => ?_, fun _ => ?_⟩
  · by_cases hu : u = t
    · subst hu
      simpa only [State.set, Atomic.State.set, Function.update_self] using
        .done o (Option.some_ne_none u).symm
    · simp only [State.set, Atomic.State.set, Function.update_of_ne hu]
      refine (h.thread u).frame ?_ (Option.some_ne_none u).symm
      rw [howner]
      exact fun heq => hu (Option.some.inj heq).symm
  · change s.shared = _
    rw [hnext, Atomic.State.shared, Atomic.State.shared, List.map_append, Machine.exec_append]
    rfl

theorem simulates (hprog : ∀ i s, (prog i).run s = M.step s i) :
    (lts prog).Simulates (Atomic.lts (τ := τ) M s₀) (Tracks M s₀) where
  event h hstep := by
    cases hstep with
    | call i ht =>
      obtain ⟨ha, htracks⟩ := h.call i ht
      exact ⟨_, htracks, .call i ha⟩
    | ret ht =>
      obtain ⟨ha, htracks⟩ := h.ret ht
      exact ⟨_, htracks, .ret ha⟩
  silent h hstep := by
    cases hstep with
    | lock ht hfree => exact ⟨_, h.lock hprog ht hfree, .inl rfl⟩
    | access ht => exact ⟨_, h.access ht, .inl rfl⟩
    | unlock ht =>
      obtain ⟨i, ha, rfl, htracks⟩ := h.unlock ht
      exact ⟨_, htracks, .inr (.perform ha)⟩

theorem Tracks.run (hprog : ∀ i s, (prog i).run s = M.step s i) {past : List (Event τ ι ο)}
    (hrun : (lts prog).Run { shared := s₀ } past s) :
    ∃ a, Tracks M s₀ s a ∧ Concurrent.Linearization M s₀ past a.ops := by
  obtain ⟨a, htracks, harun⟩ := (simulates hprog).run .start hrun
  exact ⟨a, htracks, (Atomic.Ordered.run harun).linearization⟩

/-- Every interleaving is explained by one order of whole steps. While no thread is
inside the mutex, the shared state is the one at the end of this order. -/
theorem run_linearization (hprog : ∀ i s, (prog i).run s = M.step s i)
    {past : List (Event τ ι ο)} (hrun : (lts prog).Run { shared := s₀ } past s) :
    ∃ ops, Concurrent.Linearization M s₀ past ops ∧
      (s.owner = none → s.shared = M.exec s₀ (ops.map Prod.snd)) := by
  obtain ⟨a, htracks, hlin⟩ := Tracks.run hprog hrun
  exact ⟨a.ops, hlin, htracks.free⟩

/-- When no call is pending, the shared state is the one behind all calls which were
made, in an order which permutes them. -/
theorem run_quiescent (hprog : ∀ i s, (prog i).run s = M.step s i) {past : List (Event τ ι ο)}
    (hrun : (lts prog).Run { shared := s₀ } past s) (hidle : ∀ t, s.thread t = .idle) :
    ∃ ops : List (τ × ι), ops.Perm (Concurrent.callOps past) ∧
      s.shared = M.exec s₀ (ops.map Prod.snd) := by
  obtain ⟨a, htracks, harun⟩ := (simulates hprog).run .start hrun
  have hfree : s.owner = none := by
    by_contra hne
    obtain ⟨u, hu⟩ := Option.ne_none_iff_exists'.mp hne
    have hmatch := htracks.thread u
    rw [hidle u, hu] at hmatch
    generalize a.thread u = ath at hmatch
    cases hmatch with
    | idle hout => exact hout rfl
  refine ⟨a.ops, Concurrent.perm_of_opsOf fun t => ?_, htracks.free hfree⟩
  have hmatch := htracks.thread t
  rw [hidle t] at hmatch
  generalize hath : a.thread t = ath at hmatch
  cases hmatch with
  | idle _ =>
    rw [Concurrent.opsOf_callOps]
    exact (Atomic.Ordered.run harun).opsOf_of_idle hath

theorem inside_leaves (prog : ι → Prog σ ο) (p : Prog σ ο) (ht : s.thread t = .inside p) :
    (lts prog).Run s []
      { s.set t (.done (p.run s.shared).2) with shared := (p.run s.shared).1, owner := none } := by
  induction p generalizing s with
  | ret o => exact .silent .start (.unlock ht)
  | act upd next ih =>
    have hstep : (lts prog).step s none
        { s.set t (.inside (next s.shared)) with shared := upd s.shared } := .access ht
    have hrest := ih s.shared (s := { s.set t (.inside (next s.shared)) with
      shared := upd s.shared }) (Function.update_self ..)
    simp only [State.set, Function.update_idem] at hrest
    exact Lts.Run.trans (.silent .start hstep) hrest

theorem called_leaves (prog : ι → Prog σ ο) {i : ι} (ht : s.thread t = .called i)
    (hfree : s.owner = none) :
    (lts prog).Run s [] { s.set t (.done ((prog i).run s.shared).2) with
      shared := ((prog i).run s.shared).1, owner := none } := by
  have hstep : (lts prog).step s none { s.set t (.inside (prog i)) with owner := some t } :=
    .lock ht hfree
  have hleave := inside_leaves prog (prog i) (t := t)
    (s := { s.set t (.inside (prog i)) with owner := some t }) (Function.update_self ..)
  simp only [State.set, Function.update_idem] at hleave
  exact Lts.Run.trans (.silent .start hstep) hleave

theorem overlap_run (prog : ι → Prog σ ο) (s₀ : σ) {u : τ} (hne : u ≠ t) (i j : ι) :
    ∃ s, s.owner = none ∧ (∀ v, s.thread v = .idle) ∧
      s.shared = ((prog j).run ((prog i).run s₀).1).1 ∧ (lts prog).Run { shared := s₀ }
      [.ret u ((prog j).run ((prog i).run s₀).1).2, .ret t ((prog i).run s₀).2, .call u j,
        .call t i] s := by
  have hcall : (lts prog).Run { shared := s₀ } [.call t i] _ := .event .start (.call i rfl)
  have hlock := hcall.silent (.lock (Function.update_self ..) rfl)
  have hother := hlock.event (.call (t := u) j (by simp [State.set, hne]))
  have hleave := hother.trans (inside_leaves prog (prog i) (t := t) (by simp [State.set, hne.symm]))
  have hserve := hleave.trans (called_leaves prog (t := u) (i := j)
    (by simp [State.set, hne]) rfl)
  have hret := hserve.event (.ret (t := t) (o := ((prog i).run s₀).2)
    (by simp [State.set, hne.symm]))
  have hret' := hret.event (.ret (t := u) (o := ((prog j).run ((prog i).run s₀).1).2)
    (by simp [State.set, hne]))
  refine ⟨_, rfl, fun v => ?_, rfl, hret'⟩
  simp only [State.set, Function.update_apply]
  split_ifs <;> rfl

/-- Two calls which overlap, where the later one gets the mutex first. -/
theorem overtake_run (prog : ι → Prog σ ο) (s₀ : σ) {u : τ} (hne : u ≠ t) (i j : ι) :
    ∃ s, (∀ v, s.thread v = .idle) ∧ (lts prog).Run { shared := s₀ }
      [.ret t ((prog i).run ((prog j).run s₀).1).2, .ret u ((prog j).run s₀).2, .call u j,
        .call t i] s := by
  have hcall : (lts prog).Run { shared := s₀ } [.call t i] _ := .event .start (.call i rfl)
  have hother := hcall.event (.call (t := u) j (by simp [State.set, hne]))
  have hfirst := hother.trans (called_leaves prog (t := u) (i := j) (by simp [State.set]) rfl)
  have hsecond := hfirst.trans (called_leaves prog (t := t) (i := i)
    (by simp [State.set, hne.symm]) rfl)
  have hret := hsecond.event (.ret (t := u) (o := ((prog j).run s₀).2)
    (by simp [State.set, hne]))
  have hret' := hret.event (.ret (t := t) (o := ((prog i).run ((prog j).run s₀).1).2)
    (by simp [State.set, hne.symm]))
  refine ⟨_, fun v => ?_, hret'⟩
  simp only [State.set, Function.update_apply]
  split_ifs <;> rfl

theorem Tracks.leaves (h : Tracks M s₀ s a) (prog : ι → Prog σ ο) :
    ∃ s', (lts prog).Run s [] s' ∧ s'.owner = none ∧
      ∀ t, s.thread t ≠ .idle → s'.thread t ≠ .idle := by
  cases howner : s.owner with
  | none => exact ⟨s, .start, howner, fun _ ht => ht⟩
  | some u =>
    have hmatch := h.thread u
    rw [howner] at hmatch
    generalize hu : s.thread u = th at hmatch
    generalize a.thread u = ath at hmatch
    cases hmatch with
    | idle hout => exact absurd rfl hout
    | called _ hout => exact absurd rfl hout
    | done _ hout => exact absurd rfl hout
    | inside p _ _ _ =>
      refine ⟨_, inside_leaves prog p hu, rfl, fun t ht => ?_⟩
      by_cases htu : t = u
      · subst htu
        simp [State.set]
      · simpa only [State.set, Function.update_of_ne htu] using ht

/-- No interleaving deadlocks: a thread which has called can return, without a further
call of any thread. -/
theorem run_returns (hprog : ∀ i s, (prog i).run s = M.step s i) {past : List (Event τ ι ο)}
    (hrun : (lts prog).Run { shared := s₀ } past s) (ht : s.thread t ≠ .idle) :
    ∃ o s', (lts prog).Run s [.ret t o] s' := by
  obtain ⟨a, htracks, -⟩ := Tracks.run hprog hrun
  obtain ⟨s₁, hleave, hfree, hidle⟩ := htracks.leaves prog
  obtain ⟨a₁, htracks₁, -⟩ := (simulates hprog).run htracks hleave
  cases hth : s₁.thread t with
  | idle => exact absurd hth (hidle t ht)
  | called i =>
    have hgo := called_leaves prog hth hfree
    exact ⟨_, _, .event (hleave.trans hgo) (.ret (Function.update_self ..))⟩
  | inside p =>
    have howner := (htracks₁.owner_of_inside hth).1
    rw [hfree] at howner
    cases howner
  | done o => exact ⟨o, _, .event hleave (.ret hth)⟩

end

end Monitor
