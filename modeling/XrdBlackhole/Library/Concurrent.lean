import XrdBlackhole.Library.Transition
import XrdBlackhole.Library.Machine

/-!
# Concurrent histories

Threads call an object and get replies. A linearization orders the calls as whole
steps of a machine: it keeps the order of each thread, puts a call behind all calls
which had returned before it was made, and gives every reply. The atomic object makes
one whole step between a call and its return, in any order, so it always has one.
-/

namespace Concurrent

variable {τ σ ι ο : Type*}

inductive Event (τ ι ο : Type*)
  | call (t : τ) (i : ι)
  | ret (t : τ) (o : ο)

def Event.thread : Event τ ι ο → τ
  | .call t _ => t
  | .ret t _ => t

section
variable [DecidableEq τ]

def calls (t : τ) : List (Event τ ι ο) → List ι
  | [] => []
  | .call u i :: past => if u = t then calls t past ++ [i] else calls t past
  | .ret _ _ :: past => calls t past

def finished (t : τ) : List (Event τ ι ο) → List ι
  | [] => []
  | .call _ _ :: past => finished t past
  | .ret u _ :: past => if u = t then calls t past else finished t past

def beforeCall (t : τ) : List (Event τ ι ο) → List (Event τ ι ο)
  | [] => []
  | .call u _ :: past => if u = t then past else beforeCall t past
  | .ret _ _ :: past => beforeCall t past

def opsOf (t : τ) : List (τ × ι) → List ι
  | [] => []
  | op :: ops => if op.1 = t then op.2 :: opsOf t ops else opsOf t ops

/-- The reply `o` to the latest call of `t` is that of the machine after `ops`. These
are in the order of each thread, and hold what had returned before the call. -/
structure Explains (M : Machine σ ι ο) (s₀ : σ) (past : List (Event τ ι ο)) (t : τ) (o : ο)
    (ops : List (τ × ι)) (i : ι) : Prop where
  reply : o = M.out (M.exec s₀ (ops.map Prod.snd)) i
  latest : calls t past = opsOf t ops ++ [i]
  returned : finished t past = opsOf t ops
  behind : ∀ u, finished u (beforeCall t past) <+: opsOf u ops
  called : ∀ u, opsOf u ops <+: calls u past

/-- One order of whole steps, with the calls of each thread in their order, in which
every reply is that of the machine. -/
structure Linearization (M : Machine σ ι ο) (s₀ : σ) (past : List (Event τ ι ο))
    (ops : List (τ × ι)) : Prop where
  behind : ∀ t, finished t past <+: opsOf t ops
  called : ∀ t, opsOf t ops <+: calls t past
  explains : ∀ later t o earlier, past = later ++ .ret t o :: earlier →
    ∃ pre i post, ops = pre ++ (t, i) :: post ∧ Explains M s₀ earlier t o pre i

theorem opsOf_append (t : τ) (ops ops' : List (τ × ι)) :
    opsOf t (ops ++ ops') = opsOf t ops ++ opsOf t ops' := by
  induction ops with
  | nil => rfl
  | cons op ops ih =>
    rw [List.cons_append, opsOf, opsOf, ih]
    split_ifs <;> rfl

theorem opsOf_concat_self (t : τ) (ops : List (τ × ι)) (i : ι) :
    opsOf t (ops ++ [(t, i)]) = opsOf t ops ++ [i] := by
  rw [opsOf_append, opsOf, if_pos rfl, opsOf]

theorem opsOf_concat_of_ne {t u : τ} (h : u ≠ t) (ops : List (τ × ι)) (i : ι) :
    opsOf t (ops ++ [(u, i)]) = opsOf t ops := by
  rw [opsOf_append, opsOf, if_neg h, opsOf, List.append_nil]

theorem opsOf_prefix_concat (t u : τ) (ops : List (τ × ι)) (i : ι) :
    opsOf t ops <+: opsOf t (ops ++ [(u, i)]) := by
  rw [opsOf_append]
  exact List.prefix_append _ _

def callOps : List (Event τ ι ο) → List (τ × ι)
  | [] => []
  | .call t i :: past => callOps past ++ [(t, i)]
  | .ret _ _ :: past => callOps past

theorem opsOf_callOps (t : τ) (past : List (Event τ ι ο)) :
    opsOf t (callOps past) = calls t past := by
  induction past with
  | nil => rfl
  | cons e past ih =>
    cases e with
    | call u i =>
      rw [callOps, calls]
      split_ifs with hu
      · rw [hu, opsOf_concat_self, ih]
      · rw [opsOf_concat_of_ne hu, ih]
    | ret u o => exact ih

theorem exists_split_of_opsOf {t : τ} {i : ι} {is : List ι} {ops : List (τ × ι)}
    (h : opsOf t ops = i :: is) : ∃ pre post, ops = pre ++ (t, i) :: post ∧ opsOf t pre = [] := by
  induction ops with
  | nil => cases h
  | cons op ops ih =>
    rw [opsOf] at h
    split_ifs at h with hop
    · obtain ⟨hi, -⟩ := List.cons.inj h
      exact ⟨[], ops, by rw [← hop, ← hi, List.nil_append], rfl⟩
    · obtain ⟨pre, post, hops, hpre⟩ := ih h
      refine ⟨op :: pre, post, by rw [hops, List.cons_append], ?_⟩
      rw [opsOf, if_neg hop, hpre]

theorem perm_of_opsOf {ops ops' : List (τ × ι)} (h : ∀ t, opsOf t ops = opsOf t ops') :
    ops.Perm ops' := by
  induction ops generalizing ops' with
  | nil =>
    cases ops' with
    | nil => exact .refl _
    | cons op ops' =>
      have hop := h op.1
      rw [opsOf, opsOf, if_pos rfl] at hop
      cases hop
  | cons op ops ih =>
    obtain ⟨t, i⟩ := op
    have ht : opsOf t ops' = i :: opsOf t ops := by rw [← h t, opsOf, if_pos rfl]
    obtain ⟨pre, post, rfl, hpre⟩ := exists_split_of_opsOf ht
    refine (List.Perm.cons _ (ih fun u => ?_)).trans List.perm_middle.symm
    have hu := h u
    rw [opsOf, opsOf_append, opsOf] at hu
    rw [opsOf_append]
    by_cases htu : t = u
    · subst htu
      rw [if_pos rfl, if_pos rfl, hpre, List.nil_append] at hu
      rw [hpre, List.nil_append]
      exact (List.cons.inj hu).2
    · rwa [if_neg htu, if_neg htu] at hu

theorem calls_initial (t : τ) (e : Event τ ι ο) (past : List (Event τ ι ο)) :
    calls t past <+: calls t (e :: past) := by
  cases e with
  | call u i =>
    rw [calls]
    split_ifs
    · exact List.prefix_append _ _
    · exact List.prefix_rfl
  | ret u o => exact List.prefix_rfl

theorem Explains.other {M : Machine σ ι ο} {s₀ : σ} {past : List (Event τ ι ο)} {t : τ} {o : ο}
    {ops : List (τ × ι)} {i : ι} (h : Explains M s₀ past t o ops i) {e : Event τ ι ο}
    (he : e.thread ≠ t) : Explains M s₀ (e :: past) t o ops i := by
  cases e with
  | call u j =>
    have hcalls : calls t (.call u j :: past) = calls t past := if_neg he
    have hbefore : beforeCall t (.call u j :: past) = beforeCall t past := if_neg he
    refine ⟨h.reply, hcalls.trans h.latest, h.returned, fun v => ?_, fun v => ?_⟩
    · rw [hbefore]
      exact h.behind v
    · exact (h.called v).trans (calls_initial v _ past)
  | ret u o' =>
    have hreturned : finished t (.ret u o' :: past) = finished t past := if_neg he
    refine ⟨h.reply, h.latest, hreturned.trans h.returned, h.behind, fun v => ?_⟩
    exact (h.called v).trans (calls_initial v _ past)

theorem mem_calls {t : τ} {i : ι} {past : List (Event τ ι ο)} (h : i ∈ calls t past) :
    .call t i ∈ past := by
  induction past with
  | nil => cases h
  | cons e past ih =>
    cases e with
    | call u j =>
      rw [calls] at h
      split_ifs at h with hu
      · rcases List.mem_append.mp h with hold | hnew
        · exact List.mem_cons_of_mem _ (ih hold)
        · rw [hu, List.mem_singleton.mp hnew]
          exact List.mem_cons_self
      · exact List.mem_cons_of_mem _ (ih h)
    | ret u o => exact List.mem_cons_of_mem _ (ih h)

theorem mem_opsOf {op : τ × ι} {ops : List (τ × ι)} (h : op ∈ ops) : op.2 ∈ opsOf op.1 ops := by
  induction ops with
  | nil => cases h
  | cons op' ops ih =>
    rw [opsOf]
    rcases List.mem_cons.mp h with rfl | h
    · rw [if_pos rfl]
      exact List.mem_cons_self
    · split_ifs
      · exact List.mem_cons_of_mem _ (ih h)
      · exact ih h

theorem sum_length_opsOf (T : Finset τ) {ops : List (τ × ι)} (h : ∀ op ∈ ops, op.1 ∈ T) :
    ∑ t ∈ T, (opsOf t ops).length = ops.length := by
  induction ops with
  | nil => simp [opsOf]
  | cons op ops ih =>
    have hone : ∀ t, (opsOf t (op :: ops)).length =
        (opsOf t ops).length + if op.1 = t then 1 else 0 := by
      intro t
      rw [opsOf]
      split_ifs <;> rfl
    simp only [hone, Finset.sum_add_distrib, Finset.sum_ite_eq, List.length_cons]
    rw [ih fun op' hop => h op' (List.mem_cons_of_mem _ hop), if_pos (h op List.mem_cons_self)]

theorem Linearization.mem_call {M : Machine σ ι ο} {s₀ : σ} {past : List (Event τ ι ο)}
    {ops : List (τ × ι)} (h : Linearization M s₀ past ops) {op : τ × ι} (hop : op ∈ ops) :
    .call op.1 op.2 ∈ past :=
  mem_calls ((h.called op.1).subset (mem_opsOf hop))

theorem Linearization.length_le {M : Machine σ ι ο} {s₀ : σ} {past : List (Event τ ι ο)}
    {ops : List (τ × ι)} (h : Linearization M s₀ past ops) :
    ops.length ≤ (callOps past).length := by
  let T := ((ops ++ callOps past).map Prod.fst).toFinset
  have hT : ∀ op ∈ ops ++ callOps past, op.1 ∈ T := fun op hop =>
    List.mem_toFinset.mpr (List.mem_map_of_mem (f := Prod.fst) hop)
  have hle : ∀ t ∈ T, (opsOf t ops).length ≤ (opsOf t (callOps past)).length := by
    intro t _
    rw [opsOf_callOps]
    exact (h.called t).length_le
  calc ops.length = ∑ t ∈ T, (opsOf t ops).length :=
        (sum_length_opsOf T fun op hop => hT op (List.mem_append_left _ hop)).symm
    _ ≤ ∑ t ∈ T, (opsOf t (callOps past)).length := Finset.sum_le_sum hle
    _ = (callOps past).length :=
        sum_length_opsOf T fun op hop => hT op (List.mem_append_right _ hop)

theorem finished_prefix_calls (t : τ) (past : List (Event τ ι ο)) :
    finished t past <+: calls t past := by
  induction past with
  | nil => exact List.prefix_rfl
  | cons e past ih =>
    cases e with
    | call u i => exact ih.trans (calls_initial t _ past)
    | ret u o =>
      rw [finished]
      split_ifs
      · exact List.prefix_rfl
      · exact ih

theorem finished_initial (t : τ) (later past : List (Event τ ι ο)) :
    finished t past <+: finished t (later ++ past) := by
  induction later with
  | nil => exact List.prefix_rfl
  | cons e later ih =>
    refine ih.trans ?_
    cases e with
    | call u i => exact List.prefix_rfl
    | ret u o =>
      rw [List.cons_append, finished]
      split_ifs
      · exact finished_prefix_calls t _
      · exact List.prefix_rfl

def replies : List (Event τ ι ο) → List ο
  | [] => []
  | .call _ _ :: past => replies past
  | .ret _ o :: past => o :: replies past

variable {M : Machine σ ι ο} {s₀ : σ} {past : List (Event τ ι ο)} {ops : List (τ × ι)}

theorem Explains.length_lt {later earlier : List (Event τ ι ο)} {t : τ} {o o' : ο}
    {pre pre' : List (τ × ι)} {i i' : ι} (h : Explains M s₀ earlier t o pre i)
    (h' : Explains M s₀ (later ++ .ret t o :: earlier) t o' pre' i') :
    (opsOf t pre).length < (opsOf t pre').length := by
  have hret : Concurrent.finished t (.ret t o :: earlier) = opsOf t pre ++ [i] :=
    (if_pos rfl).trans h.latest
  have hle := (finished_initial t later (.ret t o :: earlier)).length_le
  rw [hret, h'.returned, List.length_append] at hle
  exact hle

/-- The replies of a part of the history sit at pairwise different places of the order. -/
theorem Linearization.positions (h : Linearization M s₀ past ops) (cur : List (Event τ ι ο)) :
    ∀ later, past = later ++ cur → ∃ pos : List ℕ, pos.Nodup ∧
      (∀ k ∈ pos, ∃ mid t o earlier pre i post, cur = mid ++ .ret t o :: earlier ∧
        ops = pre ++ (t, i) :: post ∧ Explains M s₀ earlier t o pre i ∧ pre.length = k) ∧
      (replies cur).map some = pos.map fun k => (M.outputs s₀ (ops.map Prod.snd))[k]? := by
  induction cur with
  | nil => exact fun _ _ => ⟨[], .nil, nofun, rfl⟩
  | cons e cur ih =>
    intro later hpast
    have hpast' : past = (later ++ [e]) ++ cur := by
      rw [hpast, List.append_assoc]
      rfl
    obtain ⟨pos, hnodup, hpos, hreplies⟩ := ih (later ++ [e]) hpast'
    have hpos' : ∀ k ∈ pos, ∃ mid t o earlier pre i post, e :: cur = mid ++ .ret t o :: earlier ∧
        ops = pre ++ (t, i) :: post ∧ Explains M s₀ earlier t o pre i ∧ pre.length = k := by
      intro k hk
      obtain ⟨mid, t, o, earlier, pre, i, post, hcur, hrest⟩ := hpos k hk
      exact ⟨e :: mid, t, o, earlier, pre, i, post, by rw [hcur, List.cons_append], hrest⟩
    cases e with
    | call u i => exact ⟨pos, hnodup, hpos', hreplies⟩
    | ret t o =>
      obtain ⟨pre, i, post, hops, hexp⟩ := h.explains later t o cur hpast
      have hout : (M.outputs s₀ (ops.map Prod.snd))[pre.length]? = some o := by
        have hplace := Machine.outputs_getElem? (M := M) s₀ (pre.map Prod.snd) i
          (post.map Prod.snd)
        rwa [List.length_map, ← hexp.reply, ← List.map_cons (f := Prod.snd) (a := (t, i)),
          ← List.map_append, ← hops] at hplace
      refine ⟨pre.length :: pos, List.nodup_cons.mpr ⟨fun hmem => ?_, hnodup⟩, ?_, ?_⟩
      · obtain ⟨mid, u, o', earlier, pre', i', post', hcur, hops', hexp', hlength⟩ :=
          hpos _ hmem
        obtain ⟨rfl, hrest⟩ := List.append_inj (hops.symm.trans hops') hlength.symm
        obtain ⟨rfl, rfl⟩ := Prod.mk.inj (List.cons.inj hrest).1
        rw [hcur] at hexp
        exact (hexp'.length_lt hexp).ne rfl
      · intro k hk
        rcases List.mem_cons.mp hk with rfl | hk
        · exact ⟨[], t, o, cur, pre, i, post, rfl, hops, hexp, rfl⟩
        · exact hpos' k hk
      · rw [replies, List.map_cons, List.map_cons, hout, hreplies]

theorem Linearization.replies_subperm (h : Linearization M s₀ past ops) :
    (Concurrent.replies past).Subperm (M.outputs s₀ (ops.map Prod.snd)) := by
  obtain ⟨pos, hnodup, hpos, hreplies⟩ := h.positions past [] rfl
  have hrange : pos.Subperm (List.range (M.outputs s₀ (ops.map Prod.snd)).length) := by
    refine hnodup.subperm fun k hk => ?_
    obtain ⟨_, _, _, _, pre, i, post, _, hops, _, rfl⟩ := hpos k hk
    simp [hops]
  have hall : (List.range (M.outputs s₀ (ops.map Prod.snd)).length).map
      (fun k => (M.outputs s₀ (ops.map Prod.snd))[k]?) =
      (M.outputs s₀ (ops.map Prod.snd)).map some := by
    apply List.ext_getElem <;> simp
  obtain ⟨l, hperm, hsub⟩ := hrange
  have hmap : (pos.map fun k => (M.outputs s₀ (ops.map Prod.snd))[k]?).Subperm
      ((List.range (M.outputs s₀ (ops.map Prod.snd)).length).map
        fun k => (M.outputs s₀ (ops.map Prod.snd))[k]?) := ⟨l.map _, hperm.map _, hsub.map _⟩
  rw [hall, ← hreplies] at hmap
  exact (List.map_subperm_map_iff (Option.some_injective ο)).mp hmap

end

namespace Atomic

inductive Thread (ι ο : Type*)
  | idle
  | called (i : ι)
  | done (o : ο)

structure State (τ ι ο : Type*) where
  ops : List (τ × ι) := []
  thread : τ → Thread ι ο := fun _ => .idle

variable [DecidableEq τ]

def State.set (a : State τ ι ο) (t : τ) (th : Thread ι ο) : State τ ι ο :=
  { a with thread := Function.update a.thread t th }

def State.shared (M : Machine σ ι ο) (s₀ : σ) (a : State τ ι ο) : σ :=
  M.exec s₀ (a.ops.map Prod.snd)

inductive Step (M : Machine σ ι ο) (s₀ : σ) (a : State τ ι ο) :
    Option (Event τ ι ο) → State τ ι ο → Prop
  | call {t : τ} (i : ι) : a.thread t = .idle →
      Step M s₀ a (some (.call t i)) (a.set t (.called i))
  | perform {t : τ} {i : ι} : a.thread t = .called i →
      Step M s₀ a none { a.set t (.done (M.out (a.shared M s₀) i)) with ops := a.ops ++ [(t, i)] }
  | ret {t : τ} {o : ο} : a.thread t = .done o →
      Step M s₀ a (some (.ret t o)) (a.set t .idle)

def lts (M : Machine σ ι ο) (s₀ : σ) : Lts (State τ ι ο) (Event τ ι ο) := ⟨Step M s₀⟩

inductive Status (M : Machine σ ι ο) (s₀ : σ) (past : List (Event τ ι ο)) (ops : List (τ × ι))
    (t : τ) : Thread ι ο → Prop
  | idle : calls t past = opsOf t ops → finished t past = opsOf t ops →
      Status M s₀ past ops t .idle
  | called {i : ι} : calls t past = opsOf t ops ++ [i] → finished t past = opsOf t ops →
      (∀ u, finished u (beforeCall t past) <+: opsOf u ops) →
      Status M s₀ past ops t (.called i)
  | done {o : ο} (pre : List (τ × ι)) (i : ι) (post : List (τ × ι)) :
      calls t past = opsOf t ops → finished t past <+: opsOf t ops →
      ops = pre ++ (t, i) :: post → Explains M s₀ past t o pre i →
      Status M s₀ past ops t (.done o)

structure Ordered (M : Machine σ ι ο) (s₀ : σ) (past : List (Event τ ι ο))
    (a : State τ ι ο) : Prop where
  status : ∀ t, Status M s₀ past a.ops t (a.thread t)
  replies : ∀ later t o earlier, past = later ++ .ret t o :: earlier →
    ∃ pre i post, a.ops = pre ++ (t, i) :: post ∧ Explains M s₀ earlier t o pre i

section
variable {M : Machine σ ι ο} {s₀ : σ} {past : List (Event τ ι ο)} {ops : List (τ × ι)} {t u : τ}
  {th : Thread ι ο} {a a' : State τ ι ο}

theorem Status.finished_initial (h : Status M s₀ past ops t th) :
    finished t past <+: opsOf t ops := by
  cases h with
  | idle _ hfin => exact hfin ▸ List.prefix_rfl
  | called _ hfin _ => exact hfin ▸ List.prefix_rfl
  | done _ _ _ _ hfin _ _ => exact hfin

theorem Status.called_initial (h : Status M s₀ past ops t th) : opsOf t ops <+: calls t past := by
  cases h with
  | idle hcalls _ => exact hcalls ▸ List.prefix_rfl
  | called hcalls _ _ =>
    rw [hcalls]
    exact List.prefix_append _ _
  | done _ _ _ hcalls _ _ _ => exact hcalls ▸ List.prefix_rfl

theorem Status.other_call (h : Status M s₀ past ops t th) (hu : u ≠ t) (i : ι) :
    Status M s₀ (.call u i :: past) ops t th := by
  have hcalls : calls t (.call u i :: past) = calls t past := if_neg hu
  have hbefore : beforeCall t (.call u i :: past) = beforeCall t past := if_neg hu
  cases h with
  | idle hc hf => exact .idle (hcalls.trans hc) hf
  | called hc hf hb => exact .called (hcalls.trans hc) hf (hbefore ▸ hb)
  | done pre j post hc hf hops hexp =>
    exact .done pre j post (hcalls.trans hc) hf hops (hexp.other hu)

theorem Status.other_ret (h : Status M s₀ past ops t th) (hu : u ≠ t) (o : ο) :
    Status M s₀ (.ret u o :: past) ops t th := by
  have hfin : finished t (.ret u o :: past) = finished t past := if_neg hu
  cases h with
  | idle hc hf => exact .idle hc (hfin.trans hf)
  | called hc hf hb => exact .called hc (hfin.trans hf) hb
  | done pre j post hc hf hops hexp =>
    exact .done pre j post hc (hfin.symm ▸ hf) hops (hexp.other hu)

theorem Status.other_perform (h : Status M s₀ past ops t th) (hu : u ≠ t) (i : ι) :
    Status M s₀ past (ops ++ [(u, i)]) t th := by
  have hops := opsOf_concat_of_ne hu ops i
  cases h with
  | idle hc hf => exact .idle (hc.trans hops.symm) (hf.trans hops.symm)
  | called hc hf hb =>
    refine .called (by rw [hops, hc]) (hf.trans hops.symm) fun v => ?_
    exact (hb v).trans (opsOf_prefix_concat v u ops i)
  | done pre j post hc hf hsplit hexp =>
    refine .done pre j (post ++ [(u, i)]) (hc.trans hops.symm) (hops.symm ▸ hf) ?_ hexp
    rw [hsplit, List.append_assoc, List.cons_append]

theorem Ordered.start : Ordered M s₀ [] ({} : State τ ι ο) :=
  ⟨fun _ => .idle rfl rfl, fun _ _ _ _ hsplit => by simp at hsplit⟩

theorem Ordered.call (h : Ordered M s₀ past a) {i : ι} (ht : a.thread t = .idle) :
    Ordered M s₀ (.call t i :: past) (a.set t (.called i)) := by
  constructor
  · intro u
    by_cases hu : u = t
    · subst hu
      have hstatus := h.status u
      rw [ht] at hstatus
      simp only [State.set, Function.update_self]
      cases hstatus with
      | idle hc hf =>
        refine .called ?_ hf fun v => ?_
        · rw [calls, if_pos rfl, hc]
        · rw [beforeCall, if_pos rfl]
          exact (h.status v).finished_initial
    · simp only [State.set, Function.update_of_ne hu]
      exact (h.status u).other_call (Ne.symm hu) i
  · intro later u o earlier hsplit
    cases later with
    | nil => cases hsplit
    | cons e later => exact h.replies later u o earlier (List.cons.inj hsplit).2

theorem Ordered.ret (h : Ordered M s₀ past a) {o : ο} (ht : a.thread t = .done o) :
    Ordered M s₀ (.ret t o :: past) (a.set t .idle) := by
  have hstatus := h.status t
  rw [ht] at hstatus
  constructor
  · intro u
    by_cases hu : u = t
    · subst hu
      simp only [State.set, Function.update_self]
      cases hstatus with
      | done pre i post hc hf hops hexp =>
        refine .idle hc ?_
        rw [finished, if_pos rfl]
        exact hc
    · simp only [State.set, Function.update_of_ne hu]
      exact (h.status u).other_ret (Ne.symm hu) o
  · intro later u o' earlier hsplit
    cases later with
    | nil =>
      obtain ⟨hevent, rfl⟩ := List.cons.inj hsplit
      obtain ⟨rfl, rfl⟩ := Event.ret.inj hevent
      cases hstatus with
      | done pre i post hc hf hops hexp => exact ⟨pre, i, post, hops, hexp⟩
    | cons e later => exact h.replies later u o' earlier (List.cons.inj hsplit).2

theorem Ordered.perform (h : Ordered M s₀ past a) {i : ι} (ht : a.thread t = .called i) :
    Ordered M s₀ past
      { a.set t (.done (M.out (a.shared M s₀) i)) with ops := a.ops ++ [(t, i)] } := by
  constructor
  · intro u
    by_cases hu : u = t
    · subst hu
      have hstatus := h.status u
      rw [ht] at hstatus
      simp only [State.set, Function.update_self]
      cases hstatus with
      | called hc hf hb =>
        refine .done a.ops i [] ?_ ?_ rfl ⟨rfl, hc, hf, hb, fun v => (h.status v).called_initial⟩
        · rw [opsOf_concat_self]
          exact hc
        · rw [hf]
          exact opsOf_prefix_concat u u a.ops i
    · simp only [State.set, Function.update_of_ne hu]
      exact (h.status u).other_perform (Ne.symm hu) i
  · intro later u o earlier hsplit
    obtain ⟨pre, j, post, hops, hexp⟩ := h.replies later u o earlier hsplit
    refine ⟨pre, j, post ++ [(t, i)], ?_, hexp⟩
    rw [hops, List.append_assoc, List.cons_append]

theorem Ordered.run (hrun : (lts M s₀).Run {} past a) : Ordered M s₀ past a := by
  refine hrun.invariant (I := Ordered M s₀) ?_ ?_ .start
  · intro past b c hb hstep
    cases hstep with
    | perform ht => exact hb.perform ht
  · intro past b c e hb hstep
    cases hstep with
    | call i ht => exact hb.call ht
    | ret ht => exact hb.ret ht

theorem Ordered.opsOf_of_idle (h : Ordered M s₀ past a) (ht : a.thread t = .idle) :
    opsOf t a.ops = calls t past := by
  have hstatus := h.status t
  rw [ht] at hstatus
  cases hstatus with
  | idle hc _ => exact hc.symm

theorem Ordered.linearization (h : Ordered M s₀ past a) : Linearization M s₀ past a.ops :=
  ⟨fun t => (h.status t).finished_initial, fun t => (h.status t).called_initial, h.replies⟩

end

end Atomic

end Concurrent
