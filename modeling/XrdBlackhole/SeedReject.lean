import XrdBlackhole.SeedPath

/-!
# Rejected seedfile directives

All checks but one come before the first stub. The check of a generated path is made
in the loop, so a directive which fails there keeps the names which it has seeded.
Nothing changes exactly if all of these were bound before.
-/

namespace XrdBlackhole

structure SameNamespace (fs fs' : BlackholeFS) : Prop where
  files : ∀ p, fs'.getStub p = fs.getStub p
  stubs : ∀ i < fs.stubs.next, fs'.stubs.get i = fs.stubs.get i

def RejectedUnchanged (words : List CWord) (fs : BlackholeFS) : Prop :=
  ∀ fs' log, cfgSeedfile words fs = some (false, fs', log) → SameNamespace fs fs'

/-- If the loop meets a name which is too long, the names before it are all bound. -/
def NothingToUndo (words : List CWord) (fs : BlackholeFS) : Prop :=
  ∀ d, (seedDirective words).2 = some d → d.count ≠ 1 →
    ∀ k < d.count.toNat, Printed d.path k →
      ∀ out, expand d.path k = some out → bufSize ≤ out.length →
        ∀ i < k, ∀ name, expand d.path i = some name → fs.getStub (cString name) ≠ none

section
variable {d : SeedDirective} {names : List Str} {words : List CWord} {fs fs' : BlackholeFS}

theorem SameNamespace.refl (fs : BlackholeFS) : SameNamespace fs fs :=
  ⟨fun _ => rfl, fun _ _ => rfl⟩

theorem Seeds.same_iff (h : Seeds d names fs fs') :
    SameNamespace fs fs' ↔ ∀ p ∈ names, fs.getStub p ≠ none := by
  constructor
  · intro hsame p hp hnone
    obtain ⟨j, hj⟩ := h.bound p hp
    have hbound : fs'.getStub p = some j := hj
    rw [hsame.files, hnone] at hbound
    cases hbound
  · intro hbound
    refine ⟨fun p => ?_, fun i hi => h.old hi⟩
    by_cases hp : p ∈ names
    · obtain ⟨j, hj⟩ := Option.ne_none_iff_exists'.mp (hbound p hp)
      exact (h.kept hj).trans hj.symm
    · exact h.others p hp

theorem seedLoop_stops {n i k : ℕ} {out : Str} (hprinted : Printed d.path k) (hik : i ≤ k)
    (hk : k < i + n) (hout : expand d.path k = some out) (hlong : bufSize ≤ out.length)
    (fs : BlackholeFS) : ∃ fs', seedLoop d n i fs = some (false, fs') := by
  induction n generalizing i fs with
  | zero => exact absurd hk (not_lt.mpr hik)
  | succ n ih =>
    rw [seedLoop]
    rcases Nat.eq_or_lt_of_le hik with rfl | hlt
    · rw [hout]
      exact ⟨fs, if_pos hlong⟩
    · obtain ⟨short, hshort, hlen⟩ := hprinted i hlt
      rw [hshort]
      dsimp only
      rw [if_neg (not_le.mpr hlen)]
      exact ih hlt (by omega) _

/-- A loop which has failed seeded the names before the one which is too long. -/
theorem seedLoop_failed {n : ℕ} (h : seedLoop d n 0 fs = some (false, fs')) :
    ∃ k < n, Printed d.path k ∧ (∃ out, expand d.path k = some out ∧ bufSize ≤ out.length) ∧
      (SameNamespace fs fs' ↔
        ∀ i < k, ∀ name, expand d.path i = some name → fs.getStub (cString name) ≠ none) := by
  obtain ⟨names, hseeds, hnames, hlt, out, hout, hlong⟩ := seedLoop_run h
  simp only [Nat.zero_add] at hnames hout
  refine ⟨names.length, hlt, fun i hi => ?_, ⟨out, hout, hlong⟩, ?_⟩
  · obtain ⟨name, hname, hshort, -⟩ := hnames i hi
    exact ⟨name, hname, hshort⟩
  · rw [hseeds.same_iff]
    constructor
    · intro hbound i hi name hname
      obtain ⟨name', hname', -, hget⟩ := hnames i hi
      obtain rfl := Option.some.inj (hname.symm.trans hname')
      exact hbound _ (List.mem_of_getElem? hget)
    · intro hbound p hp
      obtain ⟨i, hi, rfl⟩ := List.mem_iff_getElem.mp hp
      obtain ⟨name, hname, -, hget⟩ := hnames i hi
      rw [List.getElem?_eq_getElem hi] at hget
      rw [Option.some.inj hget]
      exact hbound i hi name hname

theorem Printed.first_long {path : CWord} {j k : ℕ} {out out' : Str} (hj : Printed path j)
    (hk : Printed path k) (houtJ : expand path j = some out) (hlongJ : bufSize ≤ out.length)
    (houtK : expand path k = some out') (hlongK : bufSize ≤ out'.length) : j = k := by
  have hle : ∀ {j k : ℕ} {out : Str}, Printed path j → expand path k = some out →
      bufSize ≤ out.length → j ≤ k := by
    intro j k out hprinted hout hlong
    by_contra hlt
    obtain ⟨short, hshort, hlen⟩ := hprinted k (not_le.mp hlt)
    obtain rfl := Option.some.inj (hout.symm.trans hshort)
    exact absurd hlen (not_lt.mpr hlong)
  exact le_antisymm (hle hj houtK hlongK) (hle hk houtJ hlongJ)

theorem cfgSeedfile_false {log : List Emsg} (h : cfgSeedfile words fs = some (false, fs', log)) :
    fs' = fs ∨ ∃ d, (seedDirective words).2 = some d ∧ d.count ≠ 1 ∧
      seedLoop d d.count.toNat 0 fs = some (false, fs') := by
  unfold cfgSeedfile at h
  split at h
  · exact .inl (Prod.mk.inj (Prod.mk.inj (Option.some.inj h)).2).1.symm
  · next d heq =>
    obtain ⟨⟨ok, fs₁⟩, hall, hr⟩ := Option.map_eq_some_iff.mp h
    obtain ⟨rfl, hr⟩ := Prod.mk.inj hr
    obtain rfl := (Prod.mk.inj hr).1
    refine .inr ⟨d, by rw [heq], ?_⟩
    unfold seedAll at hall
    split_ifs at hall with hone
    · cases hall
    · exact ⟨hone, hall⟩

theorem cfgSeedfile_of_loop (hd : (seedDirective words).2 = some d) (hcount : d.count ≠ 1)
    (hloop : seedLoop d d.count.toNat 0 fs = some (false, fs')) :
    ∃ log, cfgSeedfile words fs = some (false, fs', log) := by
  obtain ⟨log, hlog⟩ : ∃ log, seedDirective words = (log, some d) := ⟨_, Prod.ext rfl hd⟩
  simp only [cfgSeedfile, hlog, seedAll, hcount, if_false, hloop]
  exact ⟨_, rfl⟩

theorem NothingToUndo.unchanged (h : NothingToUndo words fs) : RejectedUnchanged words fs := by
  intro fs' log hrun
  rcases cfgSeedfile_false hrun with rfl | ⟨d, hd, hcount, hloop⟩
  · exact .refl fs'
  · obtain ⟨k, hk, hprinted, ⟨out, hout, hlong⟩, hiff⟩ := seedLoop_failed hloop
    exact hiff.mpr (h d hd hcount k hk hprinted out hout hlong)

theorem RejectedUnchanged.nothingToUndo (h : RejectedUnchanged words fs) :
    NothingToUndo words fs := by
  intro d hd hcount k hk hprinted out hout hlong
  obtain ⟨fs', hloop⟩ := seedLoop_stops hprinted (Nat.zero_le k)
    (hk.trans_eq (Nat.zero_add _).symm) hout hlong fs
  obtain ⟨log, hrun⟩ := cfgSeedfile_of_loop hd hcount hloop
  obtain ⟨j, -, hprintedJ, ⟨out', hout', hlong'⟩, hiff⟩ := seedLoop_failed hloop
  obtain rfl := hprintedJ.first_long hprinted hout' hlong' hout hlong
  exact hiff.mp (h fs' log hrun)

end

/-- For every line and every namespace, a rejected directive changes nothing exactly
if no new name comes before the one which is too long. -/
theorem rejected_unchanged_iff (words : List CWord) (fs : BlackholeFS) :
    RejectedUnchanged words fs ↔ NothingToUndo words fs :=
  ⟨RejectedUnchanged.nothingToUndo, NothingToUndo.unchanged⟩

def longStem : Str := '/' :: List.replicate 4093 'a'

theorem longStem_mem {c : Char} (h : c ∈ longStem) : c = '/' ∨ c = 'a' :=
  (List.mem_cons.mp h).imp_right List.eq_of_mem_replicate

def longPath : CWord := ⟨longStem ++ "%d".toList, by
  intro h
  rcases List.mem_append.mp h with h | h
  · rcases longStem_mem h with h | h <;> exact absurd h (by decide)
  · exact absurd h (by decide)⟩

def longDirective : SeedDirective := { path := longPath, size := 1, count := 11 }

def longWords : List CWord :=
  [longPath, ⟨"1".toList, by decide⟩, ⟨"count=11".toList, by decide⟩]

theorem longWords_accepted : (seedDirective longWords).2 = some longDirective := by
  have hread : ∀ path : CWord, seedDirective [path, ⟨"1".toList, by decide⟩,
      ⟨"count=11".toList, by decide⟩] =
      if 1 < 11 ∧ '%' ∉ path.1 then
        ([⟨"blackhole.seedfile: count>1 requires a printf format specifier in path".toList,
          path.1⟩], none)
      else ([], some { path := path, size := 1, count := 11 }) := fun _ => rfl
  have hpercent : '%' ∈ longPath.1 := List.mem_append_right _ List.mem_cons_self
  rw [longWords, hread, if_neg fun h => h.2 hpercent]
  rfl

theorem expand_longPath {k : ℕ} (hk : k ≤ 10) :
    ∃ out, expand longPath k = some out ∧ out.length = if k < 10 then 4095 else 4096 := by
  have hplain : '%' ∉ longStem := by
    intro h
    rcases longStem_mem h with h | h <;> exact absurd h (by decide)
  let spec : Printf.Spec := ⟨[], .none, .none, .none, 'd'⟩
  have hread : Printf.directives longPath.1 = some (longStem.map .lit ++ .conv spec :: []) :=
    (Printf.Plain.of_not_mem hplain).directives_append "%d".toList
  have hformat := Printf.IntFormat.of_directives hread (Printf.Plain.of_not_mem hplain).text_ne_none
    (by simp) (.inl rfl) rfl (by decide) (by decide)
  rw [Printf.filterMap_text_lit, List.filterMap_nil] at hformat
  have hfield : ∀ k ≤ 10, (spec.decimal (BitVec.ofNat 32 k).toInt).length =
      if k < 10 then 1 else 2 := by decide
  have hlen : (longStem ++ (spec.decimal (BitVec.ofNat 32 k).toInt ++ [])).length =
      if k < 10 then 4095 else 4096 := by
    rw [List.append_nil, List.length_append, hfield k hk, longStem, List.length_cons,
      List.length_replicate]
    split_ifs <;> rfl
  refine ⟨_, expand_of_lt hformat (by decide) ?_, hlen⟩
  rw [hlen]
  split_ifs <;> decide

theorem long_path_leaves_files : ¬ RejectedUnchanged longWords {} := by
  intro hsame
  have hprinted : Printed longPath 10 := by
    intro i hi
    obtain ⟨out, hout, hlen⟩ := expand_longPath hi.le
    rw [if_pos hi] at hlen
    exact ⟨out, hout, by rw [hlen]; decide⟩
  obtain ⟨out, hout, hlen⟩ := expand_longPath (le_refl 10)
  obtain ⟨first, hfirst, -⟩ := expand_longPath (Nat.zero_le 10)
  rw [if_neg (lt_irrefl 10)] at hlen
  refine hsame.nothingToUndo longDirective longWords_accepted (by decide) 10 (by decide) hprinted
    out hout hlen.ge 0 (by decide) first hfirst ?_
  simp [BlackholeFS.getStub]

end XrdBlackhole
