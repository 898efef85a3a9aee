import XrdBlackhole.SeedFile
import XrdBlackhole.Sessions

/-!
# What an accepted seedfile directive leaves behind

`Seeds` says what a list of seeded names does to the namespace: a name which was
bound keeps its old stub. So an accepted directive does what it says exactly when
each of its names was free or already bound to a stub like the seeded ones.
-/

namespace XrdBlackhole

structure Stub.SeededAs (d : SeedDirective) (s : Stub) : Prop where
  special : s.special = true
  size : s.size = d.size
  readtype : s.readtype = d.readtype

structure Seeds (d : SeedDirective) (names : List Str) (fs fs' : BlackholeFS) : Prop where
  kept {p : Str} {j : ℕ} : fs.files[p]? = some j → fs'.files[p]? = some j
  bound : ∀ p ∈ names, ∃ j, fs'.files[p]? = some j
  others : ∀ p, p ∉ names → fs'.files[p]? = fs.files[p]?
  fresh {p : Str} {j : ℕ} : fs'.files[p]? = some j →
    fs.files[p]? = some j ∨ fs.stubs.next ≤ j ∧ j < fs'.stubs.next
  next : fs.stubs.next ≤ fs'.stubs.next
  old {j : ℕ} : j < fs.stubs.next → fs'.stubs.get j = fs.stubs.get j
  new {j : ℕ} : fs.stubs.next ≤ j → j < fs'.stubs.next →
    (fs'.stubs.get j).SeededAs d ∧ (fs'.stubs.get j).stat.size = d.size

namespace Seeds
variable {d : SeedDirective} {names : List Str} {fs fs' : BlackholeFS}

theorem nil (d : SeedDirective) (fs : BlackholeFS) : Seeds d [] fs fs := by
  refine ⟨id, ?_, fun _ _ => rfl, .inl, le_rfl, fun _ => rfl, fun hle hlt => ?_⟩
  · exact fun p hp => absurd hp List.not_mem_nil
  · exact absurd hlt (not_lt.mpr hle)

theorem cons {p : Str} (h : Seeds d names (fs.seed p d.size d.readtype) fs') :
    Seeds d (p :: names) fs fs' := by
  have hfiles := fun q => fs.seed_files p q d.size d.readtype
  have hnext : (fs.seed p d.size d.readtype).stubs.next = fs.stubs.next + 1 := rfl
  have hkept : ∀ {q : Str} {j : ℕ}, fs.files[q]? = some j →
      (fs.seed p d.size d.readtype).files[q]? = some j := by
    intro q j hq
    rw [hfiles, if_neg, hq]
    rintro ⟨rfl, hnone⟩
    rw [hq] at hnone
    cases hnone
  have hle := h.next
  rw [hnext] at hle
  refine ⟨fun hq => h.kept (hkept hq), ?_, ?_, fun {q j} hq => ?_, by omega, fun {j} hj => ?_,
    fun {j} hlo hhi => ?_⟩
  · refine List.forall_mem_cons.mpr ⟨?_, h.bound⟩
    cases hp : fs.files[p]? with
    | some j => exact ⟨j, h.kept (hkept hp)⟩
    | none => exact ⟨fs.stubs.next, h.kept (by rw [hfiles, if_pos ⟨rfl, hp⟩])⟩
  · intro q hq
    rw [List.mem_cons, not_or] at hq
    rw [h.others q hq.2, hfiles, if_neg fun hpq => hq.1 hpq.1]
  · rcases h.fresh hq with hbound | hfresh
    · rw [hfiles] at hbound
      split_ifs at hbound
      · obtain rfl := Option.some.inj hbound
        exact .inr ⟨le_rfl, by omega⟩
      · exact .inl hbound
    · rw [hnext] at hfresh
      exact .inr ⟨by omega, hfresh.2⟩
  · rw [h.old (by rw [hnext]; omega)]
    exact Heap.alloc_get_of_lt _ _ hj
  · rcases Nat.eq_or_lt_of_le hlo with rfl | hlt
    · rw [h.old (by rw [hnext]; omega), BlackholeFS.seed, Heap.alloc_get_next]
      exact ⟨⟨rfl, rfl, rfl⟩, rfl⟩
    · exact h.new (by rw [hnext]; omega) hhi

end Seeds

def seedName (d : SeedDirective) (i : ℕ) : Option Str :=
  if d.count = 1 then some d.path.1 else (expand d.path i).map cString

theorem seedLoop_run {d : SeedDirective} {n i : ℕ} {fs fs' : BlackholeFS} {ok : Bool}
    (h : seedLoop d n i fs = some (ok, fs')) :
    ∃ names, Seeds d names fs fs' ∧
      (∀ k < names.length, ∃ out, expand d.path (i + k) = some out ∧ out.length < bufSize ∧
        names[k]? = some (cString out)) ∧
      if ok then names.length = n
      else names.length < n ∧
        ∃ out, expand d.path (i + names.length) = some out ∧ bufSize ≤ out.length := by
  induction n generalizing i fs with
  | zero =>
    obtain ⟨rfl, rfl⟩ := Prod.mk.inj (Option.some.inj h)
    exact ⟨[], .nil d fs, fun k hk => absurd hk (Nat.not_lt_zero k), rfl⟩
  | succ n ih =>
    rw [seedLoop] at h
    cases hout : expand d.path i with
    | none =>
      rw [hout] at h
      cases h
    | some out =>
      rw [hout] at h
      dsimp only at h
      by_cases hlong : bufSize ≤ out.length
      · rw [if_pos hlong] at h
        obtain ⟨rfl, rfl⟩ := Prod.mk.inj (Option.some.inj h)
        refine ⟨[], .nil d fs, fun k hk => absurd hk (Nat.not_lt_zero k), Nat.succ_pos n, ?_⟩
        exact ⟨out, hout, hlong⟩
      · rw [if_neg hlong] at h
        obtain ⟨names, hseeds, hnames, hend⟩ := ih h
        refine ⟨cString out :: names, hseeds.cons, fun k hk => ?_, ?_⟩
        · cases k with
          | zero => exact ⟨out, hout, not_le.mp hlong, rfl⟩
          | succ k =>
            rw [← Nat.add_assoc, Nat.add_right_comm, List.getElem?_cons_succ]
            exact hnames k (Nat.lt_of_succ_lt_succ hk)
        · rw [List.length_cons, ← Nat.add_assoc, Nat.add_right_comm]
          cases ok
          · exact ⟨Nat.succ_lt_succ hend.1, hend.2⟩
          · exact congrArg (· + 1) hend

theorem seedLoop_seeds {d : SeedDirective} {n i : ℕ} {fs fs' : BlackholeFS}
    (h : seedLoop d n i fs = some (true, fs')) :
    ∃ names, names.length = n ∧ Seeds d names fs fs' ∧
      ∀ k < n, (expand d.path (i + k)).map cString = names[k]? := by
  obtain ⟨names, hseeds, hnames, hlen⟩ := seedLoop_run h
  refine ⟨names, hlen, hseeds, fun k hk => ?_⟩
  obtain ⟨out, hout, -, hname⟩ := hnames k (hk.trans_eq hlen.symm)
  rw [hout, hname]
  rfl

theorem seedAll_seeds {d : SeedDirective} {fs fs' : BlackholeFS}
    (h : seedAll d fs = some (true, fs')) :
    ∃ names, names.length = d.count.toNat ∧ Seeds d names fs fs' ∧
      ∀ k < d.count.toNat, seedName d k = names[k]? := by
  unfold seedAll at h
  by_cases hone : d.count = 1
  · rw [if_pos hone] at h
    obtain rfl := (Prod.mk.inj (Option.some.inj h)).2
    refine ⟨[d.path.1], by rw [hone]; rfl, (Seeds.nil d _).cons, fun k hk => ?_⟩
    have hzero : k = 0 := by
      rw [hone] at hk
      exact Nat.lt_one_iff.mp hk
    rw [seedName, if_pos hone, hzero]
    rfl
  · rw [if_neg hone] at h
    obtain ⟨names, hlen, hseeds, hnames⟩ := seedLoop_seeds h
    refine ⟨names, hlen, hseeds, fun k hk => ?_⟩
    rw [seedName, if_neg hone, ← hnames k hk, Nat.zero_add]

theorem cString_eq_self {s : Str} (h : '\x00' ∉ s) : cString s = s := by
  refine Digits.takeWhile_eq_self fun c hc => ?_
  have hne : c ≠ '\x00' := fun heq => h (heq ▸ hc)
  simpa using hne

section
variable {path : CWord} {before after : Str} {spec : Printf.Spec}

theorem expand_eq_some (h : Printf.IntFormat path.1 before spec after) (hhash : '#' ∉ spec.flags)
    {k : ℕ} {out : Str} (hout : expand path k = some out) :
    out = before ++ (spec.decimal (BitVec.ofNat 32 k).toInt ++ after) := by
  rw [expand, h.snprintf_eq hhash] at hout
  exact (Option.mem_some_iff.mp (Option.mem_filter_iff.mp hout).1).symm

theorem expand_no_nul (h : Printf.IntFormat path.1 before spec after) (hhash : '#' ∉ spec.flags)
    {i : ℕ} {out : Str} (hout : expand path i = some out) : '\x00' ∉ out := by
  rw [expand_eq_some h hhash hout]
  obtain ⟨pre, text, post, ds, es, flags, width, precision, conv, hpath, hpre, hpost, -, rfl, rfl,
    -⟩ := h
  have hnul := path.2
  rw [hpath] at hnul
  intro hmem
  rcases List.mem_append.mp hmem with hbefore | hmem
  · exact hnul (List.mem_append_left _ (hpre.text_mem _ hbefore))
  · rcases List.mem_append.mp hmem with hfield | hafter
    · rcases Printf.Spec.mem_decimal hfield with h | h | h | h <;> exact absurd h (by decide)
    · have hpost' := hpost.text_mem _ hafter
      simp [hpost'] at hnul

theorem expand_injective (h : Printf.IntFormat path.1 before spec after)
    (hhash : '#' ∉ spec.flags) {i j : ℕ} (hi : i < 2 ^ 32) (hj : j < 2 ^ 32) {out out' : Str}
    (houtI : expand path i = some out) (houtJ : expand path j = some out')
    (hname : cString out = cString out') : i = j := by
  rw [cString_eq_self (expand_no_nul h hhash houtI),
    cString_eq_self (expand_no_nul h hhash houtJ)] at hname
  rw [← hname] at houtJ
  have hsame := congrArg BitVec.toNat (h.injective hhash houtI houtJ)
  rw [BitVec.toNat_ofNat, BitVec.toNat_ofNat] at hsame
  omega

end

def NumberedPath (path : Str) : Prop :=
  ∃ pre w post, path = pre ++ '%' :: (w ++ 'd' :: post) ∧ '%' ∉ pre ∧ '%' ∉ post ∧
    (w = [] ∨ ∃ digits, w = '0' :: digits ∧ ∀ c ∈ digits, c.isDigit)

/-- The directive did what it says: its names differ and are bound to stubs as asked
for, all other paths are bound as before, and the stubs behind them are the same. -/
structure DirectiveKept (d : SeedDirective) (fs fs' : BlackholeFS) : Prop where
  distinct : ∀ i j, i < d.count.toNat → j < d.count.toNat → seedName d i = seedName d j → i = j
  seeded : ∀ i < d.count.toNat, ∃ p stub, seedName d i = some p ∧ fs'.getStub p = some stub ∧
    (fs'.stubs.get stub).SeededAs d
  others : ∀ p, (∀ i < d.count.toNat, seedName d i ≠ some p) → fs'.getStub p = fs.getStub p ∧
    ∀ stub, fs.getStub p = some stub → fs'.stubs.get stub = fs.stubs.get stub

/-- Each name is free, or bound to a stub as asked for. -/
def NamesFree (d : SeedDirective) (fs : BlackholeFS) : Prop :=
  ∀ i < d.count.toNat, ∀ p, seedName d i = some p → ∀ stub, fs.getStub p = some stub →
    (fs.stubs.get stub).SeededAs d

theorem seedName_injective {d : SeedDirective} {names : List Str}
    (hform : d.count = 1 ∨ 2 ≤ d.count.toNat ∧ d.count.toNat ≤ 2 ^ 31 ∧ NumberedPath d.path.1)
    (hlen : names.length = d.count.toNat)
    (hnames : ∀ k < d.count.toNat, seedName d k = names[k]?) :
    ∀ i j, i < d.count.toNat → j < d.count.toNat → seedName d i = seedName d j → i = j := by
  intro i j hi hj heq
  rcases hform with hone | ⟨htwo, hmax, pre, w, post, hpath, hpre, hpost, hw⟩
  · rw [hone] at hi hj
    exact (Nat.lt_one_iff.mp hi).trans (Nat.lt_one_iff.mp hj).symm
  · obtain ⟨spec, hformat, hhash⟩ := Printf.IntFormat.of_numbered hpre hpost hw
    rw [← hpath] at hformat
    have hcount := SeedDirective.count_ne_one htwo
    have hsome : ∀ k < d.count.toNat, ∃ out, expand d.path k = some out := by
      intro k hk
      have hname := hnames k hk
      rw [seedName, if_neg hcount, List.getElem?_eq_getElem (hlen ▸ hk)] at hname
      obtain ⟨out, hout, _⟩ := Option.map_eq_some_iff.mp hname
      exact ⟨out, hout⟩
    obtain ⟨out, houtI⟩ := hsome i hi
    obtain ⟨out', houtJ⟩ := hsome j hj
    rw [seedName, seedName, if_neg hcount, if_neg hcount, houtI, houtJ] at heq
    exact expand_injective hformat hhash (by omega) (by omega) houtI houtJ (Option.some.inj heq)

/-- A directive `<path> <size> [count=N] [type=T]` which is accepted does what it says,
in the namespace of any reachable state, exactly when each of its names was free or
already had a stub as asked for. -/
theorem seedfile_kept_iff (cs : List Call) (path sizeval : CWord) (toks : List CWord) (size : Word)
    (fs' : BlackholeFS) (log : List Emsg) (hsize : seedSize sizeval.1 = .ok size)
    (hform : (asked path size toks).count = 1 ∨ 2 ≤ (asked path size toks).count.toNat ∧
      (asked path size toks).count.toNat ≤ 2 ^ 31 ∧ NumberedPath path.1)
    (hrun : cfgSeedfile (path :: sizeval :: toks) (World.machine.exec {} cs).fs =
      some (true, fs', log)) :
    DirectiveKept (asked path size toks) (World.machine.exec {} cs).fs fs' ↔
      NamesFree (asked path size toks) (World.machine.exec {} cs).fs := by
  have hsound := (World.Sound.exec cs).fs
  generalize (World.machine.exec {} cs).fs = fs at hsound hrun
  obtain ⟨size', hsize', hall⟩ := cfgSeedfile_asked hrun
  obtain rfl := Except.ok.inj (hsize.symm.trans hsize')
  obtain ⟨names, hlen, hseeds, hnames⟩ := seedAll_seeds hall
  constructor
  · intro hkept i hi p hname stub hstub
    obtain ⟨p', stub', hname', hstub', hseeded⟩ := hkept.seeded i hi
    obtain rfl : p = p' := Option.some.inj (hname.symm.trans hname')
    have hsame : fs'.getStub p = some stub := hseeds.kept hstub
    obtain rfl : stub = stub' := Option.some.inj (hsame.symm.trans hstub')
    rwa [hseeds.old (hsound.bound hstub)] at hseeded
  · intro hfree
    refine ⟨seedName_injective hform hlen hnames, fun i hi => ?_, fun p hp => ?_⟩
    · have hget := List.getElem?_eq_getElem (hlen ▸ hi)
      have hname := (hnames i hi).trans hget
      obtain ⟨j, hj⟩ := hseeds.bound _ (List.getElem_mem (hlen ▸ hi))
      refine ⟨_, j, hname, hj, ?_⟩
      rcases hseeds.fresh hj with hold | ⟨hlo, hhi⟩
      · rw [hseeds.old (hsound.bound hold)]
        exact hfree i hi _ hname j hold
      · exact (hseeds.new hlo hhi).1
    · have hnot : p ∉ names := by
        intro hmem
        obtain ⟨i, hi, hget⟩ := List.mem_iff_getElem.mp hmem
        have hname := hnames i (hlen ▸ hi)
        rw [List.getElem?_eq_getElem hi, hget] at hname
        exact hp i (hlen ▸ hi) hname
      exact ⟨hseeds.others p hnot, fun stub hstub => hseeds.old (hsound.bound hstub)⟩

def numberedWords : List CWord :=
  [⟨"/t_%03d".toList, by decide⟩, ⟨"1K".toList, by decide⟩, ⟨"count=3".toList, by decide⟩,
   ⟨"type=random".toList, by decide⟩]

def numberedDirective : SeedDirective :=
  { path := ⟨"/t_%03d".toList, by decide⟩, size := 1024, count := 3, readtype := random }

theorem seedfile_kept_iff_three :
    ∃ fs' log, cfgSeedfile numberedWords {} = some (true, fs', log) ∧
      DirectiveKept numberedDirective {} fs' := by
  have htrue : (cfgSeedfile numberedWords {}).map Prod.fst = some true := by decide
  obtain ⟨⟨ok, fs', log⟩, hrun, rfl⟩ := Option.map_eq_some_iff.mp htrue
  refine ⟨fs', log, hrun, (seedfile_kept_iff [] _ _ _ 1024 fs' log rfl
    (.inr ⟨by decide, by decide, "/t_".toList, "03".toList, [], rfl, by decide, by decide,
      .inr ⟨['3'], rfl, List.forall_mem_singleton.mpr rfl⟩⟩) hrun).mpr ?_⟩
  intro i _ p _ stub hstub
  simp [BlackholeFS.getStub, Machine.exec] at hstub

theorem reseeded_path_keeps_size :
    let fs := (World.machine.exec {} [.ns (.seed "/f".toList 5 zeros)]).fs
    ∃ fs' log, cfgSeedfile [⟨"/f".toList, by decide⟩, ⟨"10".toList, by decide⟩] fs =
        some (true, fs', log) ∧
      ¬ DirectiveKept (asked ⟨"/f".toList, by decide⟩ 10 []) fs fs' := by
  intro fs
  refine ⟨fs.seed "/f".toList 10 zeros, [], rfl, fun hkept => ?_⟩
  obtain ⟨p, stub, hname, hstub, hseeded⟩ := hkept.seeded 0 (by decide)
  obtain rfl : "/f".toList = p := Option.some.inj hname
  obtain rfl : 0 = stub := Option.some.inj hstub
  exact absurd hseeded.size (by decide)

end XrdBlackhole
