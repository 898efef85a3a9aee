import XrdBlackhole.Library.Isolation

/-!
# Calls in several steps

A machine answers a call at once. Here a call is entered, advanced step by step and then
returned, and threads take turns between the steps. `complete` runs what is left of a
call at once, so that a step keeps what the call comes to. A thread which takes all the
turns gets the answers of the machine.
-/

open Function

variable {σ ι ο π τ : Type*}

structure Split (M : Machine σ ι ο) (π : Type*) where
  enter : σ → ι → σ × π
  advance : σ → π → σ × π
  result : π → Option ο
  complete : σ → π → σ × ο
  left : π → ℕ
  complete_enter (s : σ) (i : ι) : complete (enter s i).1 (enter s i).2 = M.step s i
  complete_advance (s : σ) {p : π} (h : result p = none) :
    complete (advance s p).1 (advance s p).2 = complete s p
  complete_result (s : σ) {p : π} {o : ο} (h : result p = some o) : complete s p = (s, o)
  left_advance (s : σ) {p : π} (h : result p = none) : left (advance s p).2 < left p

structure Threads (σ ι π τ : Type*) where
  shared : σ
  pc : τ → Option π := fun _ => none
  todo : τ → List ι

def Threads.put [DecidableEq τ] (s : Threads σ ι π τ) (a : τ) (shared : σ) (x : Option π)
    (is : List ι) : Threads σ ι π τ :=
  { shared := shared, pc := update s.pc a x, todo := update s.todo a is }

namespace Threads
variable [DecidableEq τ]

@[simp] theorem put_pc (s : Threads σ ι π τ) (a b : τ) (shared : σ) (x : Option π)
    (is : List ι) : (s.put a shared x is).pc b = if b = a then x else s.pc b := by
  simp [put, update_apply]

@[simp] theorem put_todo (s : Threads σ ι π τ) (a b : τ) (shared : σ) (x : Option π)
    (is : List ι) : (s.put a shared x is).todo b = if b = a then is else s.todo b := by
  simp [put, update_apply]

end Threads

namespace Split
variable [DecidableEq τ] {M : Machine σ ι ο} (S : Split M π)

def turn (s : Threads σ ι π τ) (a : τ) : Threads σ ι π τ × Option ο :=
  match s.pc a with
  | none =>
    match s.todo a with
    | [] => (s, none)
    | i :: is =>
      let r := S.enter s.shared i
      (s.put a r.1 (some r.2) is, none)
  | some p =>
    match S.result p with
    | none =>
      let r := S.advance s.shared p
      (s.put a r.1 (some r.2) (s.todo a), none)
    | some o => (s.put a s.shared none (s.todo a), some o)

def threads (τ : Type*) [DecidableEq τ] : Machine (Threads σ ι π τ) τ (Option ο) := ⟨S.turn⟩

def replies (a : τ) (s : Threads σ ι π τ) (schedule : List τ) : List ο :=
  ((S.threads τ).observed (fun b => b = a) s schedule).reduceOption

def future (a : τ) (s : Threads σ ι π τ) : List ο × σ :=
  match s.pc a with
  | none => (M.outputs s.shared (s.todo a), M.exec s.shared (s.todo a))
  | some p =>
    let r := S.complete s.shared p
    (r.2 :: M.outputs r.1 (s.todo a), M.exec r.1 (s.todo a))

def Idle (a : τ) (s : Threads σ ι π τ) : Prop := s.pc a = none ∧ s.todo a = []

inductive TurnCase (s : Threads σ ι π τ) (a : τ) : Threads σ ι π τ × Option ο → Prop
  | idle (hpc : s.pc a = none) (htodo : s.todo a = []) : TurnCase s a (s, none)
  | enter (i : ι) (is : List ι) (hpc : s.pc a = none) (htodo : s.todo a = i :: is) :
    TurnCase s a (s.put a (S.enter s.shared i).1 (some (S.enter s.shared i).2) is, none)
  | advance (p : π) (hpc : s.pc a = some p) (hresult : S.result p = none) :
    TurnCase s a
      (s.put a (S.advance s.shared p).1 (some (S.advance s.shared p).2) (s.todo a), none)
  | return (p : π) (o : ο) (hpc : s.pc a = some p) (hresult : S.result p = some o) :
    TurnCase s a (s.put a s.shared none (s.todo a), some o)

theorem turn_case (s : Threads σ ι π τ) (a : τ) : S.TurnCase s a (S.turn s a) := by
  cases hpc : s.pc a with
  | none =>
    cases htodo : s.todo a with
    | nil =>
      simp only [turn, hpc, htodo]
      exact .idle hpc htodo
    | cons i is =>
      simp only [turn, hpc, htodo]
      exact .enter i is hpc htodo
  | some p =>
    cases hresult : S.result p with
    | none =>
      simp only [turn, hpc, hresult]
      exact .advance p hpc hresult
    | some o =>
      simp only [turn, hpc, hresult]
      exact .return p o hpc hresult

theorem future_turn (s : Threads σ ι π τ) (a : τ) :
    ((S.turn s a).2.toList ++ (S.future a (S.turn s a).1).1, (S.future a (S.turn s a).1).2) =
      S.future a s := by
  have hcase := S.turn_case s a
  generalize S.turn s a = r at hcase
  cases hcase with
  | idle hpc htodo => rfl
  | enter i is hpc htodo =>
    simp only [future, hpc, htodo, Threads.put, update_self, S.complete_enter]
    rfl
  | advance p hpc hresult => simp [future, Threads.put, hpc, S.complete_advance s.shared hresult]
  | «return» p o hpc hresult => simp [future, Threads.put, hpc, S.complete_result s.shared hresult]

theorem future_alone (a : τ) (k : ℕ) (s : Threads σ ι π τ) :
    (((S.threads τ).outputs s (List.replicate k a)).reduceOption ++
        (S.future a ((S.threads τ).exec s (List.replicate k a))).1,
      (S.future a ((S.threads τ).exec s (List.replicate k a))).2) = S.future a s := by
  induction k generalizing s with
  | zero => rfl
  | succ k ih =>
    have hturn := S.future_turn s a
    rw [← ih (S.turn s a).1] at hturn
    rw [← hturn, List.replicate_succ]
    refine Prod.ext ?_ rfl
    change ((S.turn s a).2 :: _).reduceOption ++ _ = _
    cases (S.turn s a).2 <;> rfl

theorem Idle.turn {s : Threads σ ι π τ} {a : τ} (h : Idle a s) : S.turn s a = (s, none) := by
  simp only [Split.turn, h.1, h.2]

theorem Idle.alone {a : τ} {s : Threads σ ι π τ} (h : Idle a s) (k : ℕ) :
    (S.threads τ).exec s (List.replicate k a) = s := by
  induction k with
  | zero => rfl
  | succ k ih =>
    have hnext : (S.threads τ).next s a = s := congrArg Prod.fst (h.turn S)
    rw [List.replicate_succ, Machine.exec, hnext, ih]

theorem exists_call_returned (a : τ) {s : Threads σ ι π τ} {p : π} (hpc : s.pc a = some p) :
    ∃ k, ((S.threads τ).exec s (List.replicate k a)).pc a = none ∧
      ((S.threads τ).exec s (List.replicate k a)).todo a = s.todo a := by
  induction hleft : S.left p using Nat.strong_induction_on generalizing s p with
  | _ n ih =>
    cases hresult : S.result p with
    | none =>
      have hlt := S.left_advance s.shared hresult
      have hnext : (S.threads τ).next s a =
          s.put a (S.advance s.shared p).1 (some (S.advance s.shared p).2) (s.todo a) := by
        simp only [Machine.next, threads, turn, hpc, hresult]
      obtain ⟨k, hk⟩ := ih _ (hleft ▸ hlt) (s := (S.threads τ).next s a)
        (by rw [hnext]; exact update_self ..) rfl
      refine ⟨k + 1, ?_⟩
      rw [List.replicate_succ, Machine.exec]
      rw [hnext] at hk ⊢
      exact ⟨hk.1, hk.2.trans (update_self ..)⟩
    | some o =>
      refine ⟨1, ?_⟩
      simp [Machine.exec, Machine.next, threads, turn, Threads.put, hpc, hresult]

theorem exists_idle (a : τ) (s : Threads σ ι π τ) :
    ∃ n, ∀ k, n ≤ k → Idle a ((S.threads τ).exec s (List.replicate k a)) := by
  have hfrom : ∀ todo, ∀ s : Threads σ ι π τ, s.pc a = none → s.todo a = todo →
      ∃ n, Idle a ((S.threads τ).exec s (List.replicate n a)) := by
    intro todo
    induction todo with
    | nil => exact fun s hpc htodo => ⟨0, hpc, htodo⟩
    | cons i is ih =>
      intro s hpc htodo
      have hnext : (S.threads τ).next s a =
          s.put a (S.enter s.shared i).1 (some (S.enter s.shared i).2) is := by
        simp only [Machine.next, threads, turn, hpc, htodo]
      obtain ⟨k, hpc', htodo'⟩ := S.exists_call_returned a (s := (S.threads τ).next s a)
        (by rw [hnext]; exact update_self ..)
      obtain ⟨n, hn⟩ := ih _ hpc' (by rw [htodo', hnext]; exact update_self ..)
      refine ⟨1 + (k + n), ?_⟩
      rw [List.replicate_add, Machine.exec_append, List.replicate_add, Machine.exec_append]
      exact hn
  have hsome : ∃ n, Idle a ((S.threads τ).exec s (List.replicate n a)) := by
    cases hpc : s.pc a with
    | none => exact hfrom _ s hpc rfl
    | some p =>
      obtain ⟨k, hk, -⟩ := S.exists_call_returned a hpc
      obtain ⟨n, hn⟩ := hfrom _ _ hk rfl
      refine ⟨k + n, ?_⟩
      rw [List.replicate_add, Machine.exec_append]
      exact hn
  obtain ⟨n, hn⟩ := hsome
  refine ⟨n, fun k hk => ?_⟩
  obtain ⟨m, rfl⟩ := Nat.exists_eq_add_of_le hk
  rw [List.replicate_add, Machine.exec_append, hn.alone S]
  exact hn

omit [DecidableEq τ] in
theorem Idle.future {a : τ} {s : Threads σ ι π τ} (h : Idle a s) :
    S.future a s = ([], s.shared) := by
  simp only [Split.future, h.1, h.2]
  rfl

theorem rel_none {α : Type*} {r : α → α → Prop} {x y : Option α} (h : Option.Rel r x y)
    (hx : x = none) : y = none := by
  cases h with
  | some _ => cases hx
  | none => rfl

theorem rel_some {α : Type*} {r : α → α → Prop} {x y : Option α} (h : Option.Rel r x y) {a : α}
    (hx : x = some a) : ∃ b, y = some b ∧ r a b := by
  cases h with
  | some hab =>
    obtain rfl := Option.some.inj hx
    exact ⟨_, rfl, hab⟩
  | none => cases hx

theorem reduceOption_alike {alike : ο → ο → Prop} {l l' : List (Option ο)}
    (h : List.Forall₂ (Option.Rel alike) l l') :
    List.Forall₂ alike l.reduceOption l'.reduceOption := by
  induction h with
  | nil => exact .nil
  | cons hhead htail ih =>
    cases hhead with
    | some hsome => exact .cons hsome ih
    | none => exact ih

/-- If the turns of others do not disturb what one thread sees, then its calls are whole
calls to it, although others take turns inside them. -/
theorem exists_whole_calls {a : τ} {R : Threads σ ι π τ → Threads σ ι π τ → Prop}
    {alike : ο → ο → Prop}
    (hmine : ∀ s t, R s t → R (S.turn s a).1 (S.turn t a).1 ∧
      Option.Rel alike (S.turn s a).2 (S.turn t a).2)
    (hother : ∀ s t b, b ≠ a → R s t → R (S.turn s b).1 t) {s t : Threads σ ι π τ} (h : R s t) :
    ∃ n, ∀ schedule : List τ,
      (∃ whole, whole <+: (S.future a t).1 ∧ List.Forall₂ alike (S.replies a s schedule) whole) ∧
      (n ≤ schedule.count a → List.Forall₂ alike (S.replies a s schedule) (S.future a t).1 ∧
        ∃ t', R ((S.threads τ).exec s schedule) t' ∧ t'.shared = (S.future a t).2) := by
  obtain ⟨n, hidle⟩ := S.exists_idle a t
  refine ⟨n, fun schedule => ?_⟩
  obtain ⟨hend, houts⟩ := @Machine.exec_isolated _ _ _ (S.threads τ) (fun b => b = a)
    (fun _ => True) (fun _ => 0) (fun _ => R) (Option.Rel alike)
    (fun _ s t b _ hb hst => of_decide_eq_true hb ▸ hmine s t hst)
    (fun _ s t b _ hb hst => hother s t b (of_decide_eq_false (Bool.not_eq_true _ ▸ hb)) hst)
    schedule (fun _ _ => trivial) 0 s t h
  rw [List.filter_eq a] at hend houts
  have halone := S.future_alone a (schedule.count a) t
  have hreplies := reduceOption_alike houts
  rw [← halone]
  refine ⟨⟨_, List.prefix_append _ _, hreplies⟩, fun hn => ?_⟩
  rw [(hidle _ hn).future S, List.append_nil]
  exact ⟨hreplies, _, hend, rfl⟩

end Split
