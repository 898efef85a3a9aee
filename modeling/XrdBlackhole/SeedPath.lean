import XrdBlackhole.SeedNames

/-!
# The format in the path of a seedfile directive

The path is the format of every `snprintf` call of the loop, and all that is checked
before is that it has a percent sign. `CountedFormat` is the grammar of the paths
for which the calls are defined and name different files.
-/

namespace XrdBlackhole

structure ReachesLoop (words : List CWord) (d : SeedDirective) : Prop where
  accepted : (seedDirective words).2 = some d
  counted : 1 < d.count.toNat

def Printed (path : CWord) (n : ℕ) : Prop :=
  ∀ k < n, ∃ out, expand path k = some out ∧ out.length < bufSize

/-- The path has one conversion, which takes an `int`, so that each call is defined,
and the calls print different names. -/
structure PathSound (d : SeedDirective) : Prop where
  oneInt : ∃ before spec after, Printf.directives d.path.1 = some (before ++ .conv spec :: after) ∧
    (∀ x ∈ before, x.text ≠ none) ∧ (∀ x ∈ after, x.text ≠ none) ∧
    (spec.conv = 'd' ∨ spec.conv = 'i') ∧ spec.length = .none ∧ spec.width ≠ .star ∧
    spec.precision ≠ .star
  defined : ∀ fs, seedAll d fs ≠ none
  distinct : ∀ i j, i < d.count.toNat → j < d.count.toNat → Printed d.path (i + 1) →
    Printed d.path (j + 1) → (expand d.path i).map cString = (expand d.path j).map cString → i = j

/-- The path is a format for one `int` without `#`, the first name is one which
`snprintf` can count, and the indices stay below `2 ^ 32` if all names fit. -/
def CountedFormat (d : SeedDirective) : Prop :=
  ∃ before spec after, Printf.IntFormat d.path.1 before spec after ∧ '#' ∉ spec.flags ∧
    (before ++ (spec.decimal 0 ++ after)).length < 2 ^ 31 ∧
    (d.count.toNat ≤ 2 ^ 32 ∨ bufSize ≤ (before ++ (spec.decimal (-2 ^ 31) ++ after)).length)

theorem seedLoop_ne_none_iff {d : SeedDirective} {n i : ℕ} {fs : BlackholeFS}
    (h : Printed d.path i) :
    seedLoop d n i fs ≠ none ↔
      ∀ k, i ≤ k → k < i + n → Printed d.path k → expand d.path k ≠ none := by
  induction n generalizing i fs with
  | zero => exact ⟨fun _ k hlo hhi _ => absurd hlo (not_le.mpr hhi), fun _ => Option.some_ne_none _⟩
  | succ n ih =>
    rw [seedLoop]
    cases hout : expand d.path i with
    | none =>
      refine ⟨fun hne => absurd rfl hne, fun hall => ?_⟩
      exact absurd hout (hall i le_rfl (by omega) h)
    | some out =>
      dsimp only
      by_cases hlong : bufSize ≤ out.length
      · rw [if_pos hlong]
        refine ⟨fun _ k hlo _ hprinted => ?_, fun _ => Option.some_ne_none _⟩
        -- the loop ends here, so no later call is made
        rcases Nat.eq_or_lt_of_le hlo with rfl | hlt
        · rw [hout]
          exact Option.some_ne_none _
        · obtain ⟨out', hout', hshort⟩ := hprinted i hlt
          obtain rfl := Option.some.inj (hout.symm.trans hout')
          exact absurd hlong (not_le.mpr hshort)
      · have hnext : Printed d.path (i + 1) := by
          intro k hk
          rcases Nat.lt_succ_iff_lt_or_eq.mp hk with hlt | rfl
          · exact h k hlt
          · exact ⟨out, hout, not_le.mp hlong⟩
        rw [if_neg hlong, ih hnext]
        constructor
        · intro hall k hlo hhi hprinted
          rcases Nat.eq_or_lt_of_le hlo with rfl | hlt
          · rw [hout]
            exact Option.some_ne_none _
          · exact hall k hlt (by omega) hprinted
        · exact fun hall k hlo hhi => hall k (by omega) (by omega)

theorem seedAll_ne_none_iff {d : SeedDirective} (hcount : 1 < d.count.toNat) (fs : BlackholeFS) :
    seedAll d fs ≠ none ↔ ∀ k < d.count.toNat, Printed d.path k → expand d.path k ≠ none := by
  have hnone : Printed d.path 0 := fun k hk => absurd hk (Nat.not_lt_zero k)
  rw [seedAll, if_neg (SeedDirective.count_ne_one hcount), seedLoop_ne_none_iff hnone, Nat.zero_add]
  exact ⟨fun h k => h k (Nat.zero_le k), fun h k _ => h k⟩

section
variable {path : CWord} {before after : Str} {spec : Printf.Spec}

theorem natAbs_toInt_le (v : BitVec 32) : v.toInt.natAbs ≤ 2 ^ 31 := by
  have hlo := BitVec.le_toInt v
  have hhi := BitVec.toInt_lt (x := v)
  omega

theorem expand_of_lt (h : Printf.IntFormat path.1 before spec after) (hhash : '#' ∉ spec.flags)
    {k : ℕ} (hlen : (before ++ (spec.decimal (BitVec.ofNat 32 k).toInt ++ after)).length < 2 ^ 31) :
    expand path k = some (before ++ (spec.decimal (BitVec.ofNat 32 k).toInt ++ after)) := by
  rw [expand, h.snprintf_eq hhash, Option.filter_some, if_pos (by simpa using hlen)]

theorem expand_ne_none (h : Printf.IntFormat path.1 before spec after) (hhash : '#' ∉ spec.flags)
    (hfirst : (before ++ (spec.decimal 0 ++ after)).length < 2 ^ 31) {k : ℕ}
    (hprinted : Printed path k) : expand path k ≠ none := by
  have hlen : (before ++ (spec.decimal (BitVec.ofNat 32 k).toInt ++ after)).length < 2 ^ 31 := by
    have hzero : (BitVec.ofNat 32 0).toInt = 0 := by decide
    rcases Nat.eq_zero_or_pos k with rfl | hpos
    · rwa [hzero]
    · obtain ⟨out, hout, hshort⟩ := hprinted 0 hpos
      have hname := expand_eq_some h hhash hout
      have habs := natAbs_toInt_le (BitVec.ofNat 32 k)
      have hfield := spec.decimal_length_le (habs.trans_lt (by norm_num : 2 ^ 31 < 10 ^ 10))
      rw [hzero] at hname
      rw [hname] at hshort
      simp only [List.length_append, bufSize] at hshort ⊢
      omega
  rw [expand_of_lt h hhash hlen]
  exact Option.some_ne_none _

/-- If the name for the least `int` does not fit, the loop stops before it wraps. -/
theorem Printed.lt_of_long (h : Printf.IntFormat path.1 before spec after)
    (hhash : '#' ∉ spec.flags)
    (hlong : bufSize ≤ (before ++ (spec.decimal (-2 ^ 31) ++ after)).length) {i : ℕ}
    (hprinted : Printed path (i + 1)) : i < 2 ^ 32 := by
  by_contra hlarge
  obtain ⟨out, hout, hshort⟩ := hprinted (2 ^ 31) (by omega)
  have hleast : (BitVec.ofNat 32 (2 ^ 31)).toInt = -2 ^ 31 := by decide
  rw [expand_eq_some h hhash hout, hleast] at hshort
  exact absurd hlong (not_le.mpr hshort)

theorem Printed.of_short (h : Printf.IntFormat path.1 before spec after) (hhash : '#' ∉ spec.flags)
    (hshort : (before ++ (spec.decimal (-2 ^ 31) ++ after)).length < bufSize) (n : ℕ) :
    Printed path n := by
  intro k _
  have hfield := spec.decimal_length_le_least (natAbs_toInt_le (BitVec.ofNat 32 k))
  have hlen : (before ++ (spec.decimal (BitVec.ofNat 32 k).toInt ++ after)).length < bufSize := by
    simp only [List.length_append] at hshort ⊢
    omega
  refine ⟨_, expand_of_lt h hhash (hlen.trans ?_), hlen⟩
  norm_num [bufSize]

end

theorem CountedFormat.pathSound {d : SeedDirective} (hcount : 1 < d.count.toNat)
    (h : CountedFormat d) : PathSound d := by
  obtain ⟨before, spec, after, hformat, hhash, hfirst, hmax⟩ := h
  refine ⟨?_, fun fs => ?_, fun i j hi hj hprintedI hprintedJ hname => ?_⟩
  · obtain ⟨ds, es, hread, hds, hes, -, -⟩ := hformat.directives_eq
    exact ⟨ds, spec, es, hread, hds, hes, hformat.spec_int⟩
  · rw [seedAll_ne_none_iff hcount]
    exact fun k _ hprinted => expand_ne_none hformat hhash hfirst hprinted
  · have hbound : ∀ k < d.count.toNat, Printed d.path (k + 1) → k < 2 ^ 32 := by
      intro k hk hprinted
      rcases hmax with hle | hlong
      · exact hk.trans_le hle
      · exact hprinted.lt_of_long hformat hhash hlong
    obtain ⟨out, hout, -⟩ := hprintedI i (Nat.lt_succ_self i)
    obtain ⟨out', hout', -⟩ := hprintedJ j (Nat.lt_succ_self j)
    rw [hout, hout'] at hname
    exact expand_injective hformat hhash (hbound i hi hprintedI) (hbound j hj hprintedJ) hout hout'
      (Option.some.inj hname)

theorem PathSound.countedFormat {d : SeedDirective} (hcount : 1 < d.count.toNat)
    (h : PathSound d) : CountedFormat d := by
  obtain ⟨ds, spec, es, hread, hds, hes, hconv, hlength, hwidth, hprecision⟩ := h.oneInt
  have hformat := Printf.IntFormat.of_directives hread hds hes hconv hlength hwidth hprecision
  have hdefined : expand d.path 0 ≠ none :=
    (seedAll_ne_none_iff hcount {}).mp (h.defined {}) 0 (by omega)
      fun k hk => absurd hk (Nat.not_lt_zero k)
  have hhash : '#' ∉ spec.flags := fun hhash => hdefined (hformat.snprintf_hash hhash _)
  refine ⟨_, spec, _, hformat, hhash, ?_, ?_⟩
  · by_contra hlong
    apply hdefined
    rw [expand, hformat.snprintf_eq hhash, Option.filter_some, if_neg]
    simpa using hlong
  · by_contra hwrap
    rw [not_or, not_le, not_le] at hwrap
    -- the calls for 0 and `2 ^ 32` print the same name
    have hprinted := Printed.of_short hformat hhash hwrap.2
    have hsame := h.distinct 0 (2 ^ 32) (by omega) hwrap.1 (hprinted _) (hprinted _) rfl
    exact absurd hsame (by decide)

/-- For every line which gets to the loop, the check of its path was enough exactly
for the counted formats. -/
theorem pathSound_iff (words : List CWord) (d : SeedDirective) (h : ReachesLoop words d) :
    PathSound d ↔ CountedFormat d :=
  ⟨PathSound.countedFormat h.counted, CountedFormat.pathSound h.counted⟩

theorem pathSound_iff_three : PathSound numberedDirective := by
  have hread : Printf.directives numberedDirective.path.1 =
      some ([.lit '/', .lit 't', .lit '_'] ++ .conv ⟨['0'], .num 3, .none, .none, 'd'⟩ :: []) := by
    decide
  have hformat := Printf.IntFormat.of_directives hread (by decide) (by decide) (by decide)
    (by decide) (by decide) (by decide)
  exact (pathSound_iff numberedWords numberedDirective ⟨rfl, by decide⟩).mpr
    ⟨_, _, _, hformat, by decide, by decide, .inl (by decide)⟩

def stringWords : List CWord :=
  [⟨"/f_%s".toList, by decide⟩, ⟨"2K".toList, by decide⟩, ⟨"count=2".toList, by decide⟩]

def stringDirective : SeedDirective :=
  { path := ⟨"/f_%s".toList, by decide⟩, size := 2048, count := 2 }

theorem string_path_accepted : ReachesLoop stringWords stringDirective ∧
    (∀ fs, cfgSeedfile stringWords fs = none) ∧ ¬ PathSound stringDirective := by
  refine ⟨⟨rfl, by decide⟩, fun fs => rfl, fun hsound => ?_⟩
  exact hsound.defined {} rfl

end XrdBlackhole
