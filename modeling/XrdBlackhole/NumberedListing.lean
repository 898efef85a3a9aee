import XrdBlackhole.SeedPath
import XrdBlackhole.Listing
import XrdBlackhole.Library.PrintfOrder

/-!
# The listing of numbered files

A seedfile directive numbers its files, and a listing sorts them by their names. The
two orders agree exactly as long as the numbers fit the room which the conversion in
the path gives them.
-/

namespace XrdBlackhole

def seedNames (d : SeedDirective) : List Str := (List.range d.count.toNat).filterMap (seedName d)

def seededChildren (d : SeedDirective) : List Str := (seedNames d).map BlackholeFS.nameOf

structure NumbersIn (d : SeedDirective) (dir base : Str) (spec : Printf.Spec) (after : Str) :
    Prop where
  dirPath : DirPath dir
  format : Printf.IntFormat d.path.1 (stem dir ++ '/' :: base) spec after
  baseName : '/' ∉ base
  afterName : '/' ∉ after
  precision : spec.precision ≠ .num 0
  counted : 1 < d.count.toNat
  int : d.count.toNat ≤ 2 ^ 31

section
variable {dir n : Str}

theorem DirPath.stem_getLast? (hd : DirPath dir) : (stem dir).getLast? ≠ some '/' := by
  intro hlast
  rcases stem_cases dir with h | h
  · rw [stem, if_pos (h ▸ hlast)] at h
    have hne : dir ≠ [] := hd.ne_nil
    have hlen := congrArg List.length h
    rw [List.length_dropLast] at hlen
    exact absurd (List.length_pos_iff.mpr hne) (by omega)
  · refine hd.noDouble ⟨(stem dir).dropLast, [], ?_⟩
    calc (stem dir).dropLast ++ ['/', '/'] ++ [] = ((stem dir).dropLast ++ ['/']) ++ ['/'] := by
          simp
      _ = stem dir ++ ['/'] := by rw [List.dropLast_append_getLast? _ hlast]
      _ = dir := h.symm

theorem DirPath.stem_noDouble (hd : DirPath dir) : ¬ ['/', '/'] <:+: stem dir := by
  intro h
  rcases stem_cases dir with heq | heq
  · exact hd.noDouble (heq ▸ h)
  · exact hd.noDouble (h.trans (show stem dir <+: dir from ⟨['/'], heq.symm⟩).isInfix)

theorem DirPath.joinPath_wellFormed (hd : DirPath dir) (hn : n ≠ []) (hslash : '/' ∉ n) :
    WellFormed (joinPath dir n) := by
  rw [joinPath_eq]
  refine ⟨?_, ?_, ?_⟩
  · rcases stem_cases dir with h | h
    · rw [← h, List.head?_append_of_ne_nil _ hd.ne_nil]
      exact hd.absolute
    · cases hstem : stem dir with
      | nil => rfl
      | cons c cs =>
        have habsolute := hd.absolute
        rw [h, hstem] at habsolute
        exact habsolute
  · rintro ⟨pre, post, hdouble⟩
    by_cases hpost : '/' ∈ post
    · obtain ⟨a, b, rfl, hb⟩ := Components.exists_last hpost
      have hsplit : (pre ++ ['/', '/'] ++ a) ++ '/' :: b = stem dir ++ '/' :: n := by
        simpa using hdouble
      refine hd.stem_noDouble ⟨pre, a, ?_⟩
      exact (Components.last_unique hb hslash hsplit).1
    · have hsplit : (pre ++ ['/']) ++ '/' :: post = stem dir ++ '/' :: n := by simpa using hdouble
      have hstem := (Components.last_unique hpost hslash hsplit).1
      exact hd.stem_getLast? (by rw [← hstem]; simp)
  · intro hlast
    have hmem := List.mem_of_getLast? hlast
    rw [List.getLast?_append_of_ne_nil _ (List.cons_ne_nil _ _), List.getLast?_cons_of_ne_nil hn]
      at hlast
    exact hslash (List.mem_of_getLast? hlast)

end

def numberedChild (base : Str) (spec : Printf.Spec) (after : Str) (k : ℕ) : Str :=
  base ++ (spec.decimal k ++ after)

section
variable {d : SeedDirective} {dir base after : Str} {spec : Printf.Spec} {words : List CWord}
  {fs fs' : BlackholeFS} {names : List Str}

theorem NumbersIn.child_plain (h : NumbersIn d dir base spec after) (k : ℕ) :
    numberedChild base spec after k ≠ [] ∧ '/' ∉ numberedChild base spec after k := by
  constructor
  · simp [numberedChild, Printf.Spec.decimal_ne_nil h.precision]
  · intro hmem
    rcases List.mem_append.mp hmem with hbase | hmem
    · exact h.baseName hbase
    · rcases List.mem_append.mp hmem with hfield | hafter
      · rcases Printf.Spec.mem_decimal hfield with hc | hc | hc | hc <;> exact absurd hc (by decide)
      · exact h.afterName hafter

theorem NumbersIn.seedName_eq (h : NumbersIn d dir base spec after) {k : ℕ} {p : Str}
    (hk : k < d.count.toNat) (hp : seedName d k = some p) :
    p = joinPath dir (numberedChild base spec after k) := by
  rw [seedName, if_neg (SeedDirective.count_ne_one h.counted)] at hp
  obtain ⟨out, hout, rfl⟩ := Option.map_eq_some_iff.mp hp
  have hhash : '#' ∉ spec.flags := by
    intro hhash
    rw [expand, h.format.snprintf_hash hhash] at hout
    cases hout
  have hint := h.int
  rw [cString_eq_self (expand_no_nul h.format hhash hout), expand_eq_some h.format hhash hout,
    joinPath_eq, numberedChild, BitVec.toInt_ofNat', Int.bmod_eq_of_le (by omega) (by omega)]
  simp

theorem NumbersIn.names_eq (h : NumbersIn d dir base spec after)
    (hlen : names.length = d.count.toNat) (hnames : ∀ k < d.count.toNat, seedName d k = names[k]?) :
    names = (List.range d.count.toNat).map
      fun k => joinPath dir (numberedChild base spec after k) := by
  apply List.ext_getElem
  · rw [hlen, List.length_map, List.length_range]
  · intro k hk _
    have hname := (hnames k (hlen ▸ hk)).trans (List.getElem?_eq_getElem hk)
    rw [List.getElem_map, List.getElem_range]
    exact h.seedName_eq (hlen ▸ hk) hname

theorem seedNames_eq (hlen : names.length = d.count.toNat)
    (hnames : ∀ k < d.count.toNat, seedName d k = names[k]?) : seedNames d = names := by
  have hmap : (List.range d.count.toNat).map (seedName d) = names.map some := by
    apply List.ext_getElem
    · rw [List.length_map, List.length_range, List.length_map, hlen]
    · intro k hk hk'
      rw [List.length_map] at hk'
      rw [List.getElem_map, List.getElem_range, List.getElem_map, hnames k (hlen ▸ hk'),
        List.getElem?_eq_getElem hk']
  calc seedNames d = ((List.range d.count.toNat).map (seedName d)).filterMap id := by
        rw [List.filterMap_map]
        rfl
    _ = (names.map some).filterMap id := by rw [hmap]
    _ = names := by
        rw [List.filterMap_map]
        exact List.filterMap_some

/-- Numbered names are in the order of their numbers up to the first one which has
outgrown its room. -/
theorem NumbersIn.increasing_iff (h : NumbersIn d dir base spec after) :
    ((List.range d.count.toNat).map (numberedChild base spec after)).Pairwise (· < ·) ↔
      d.count.toNat ≤ 10 ^ spec.room := by
  rw [List.pairwise_map]
  constructor
  · intro hsorted
    by_contra hlarge
    have hpos : 0 < 10 ^ spec.room := Nat.pow_pos (by norm_num)
    have hlt := (List.pairwise_iff_getElem.mp hsorted) (10 ^ spec.room - 1) (10 ^ spec.room)
      (by simp; omega) (by simp; omega) (by omega)
    rw [List.getElem_range, List.getElem_range, numberedChild, numberedChild,
      Components.append_lt_append_iff] at hlt
    exact List.lt_asymm hlt (Printf.Spec.decimal_pow_lt h.precision after after)
  · intro hle
    refine List.pairwise_lt_range.imp_of_mem fun {i j} _ hj hij => ?_
    rw [numberedChild, numberedChild, Components.append_lt_append_iff]
    exact Printf.Spec.decimal_lt h.precision hij ((List.mem_range.mp hj).trans_le hle) after after

theorem Seeds.wellNamed (h : Seeds d names fs fs') (hfs : fs.WellNamed)
    (hnames : ∀ p ∈ names, WellFormed p) : fs'.WellNamed := by
  intro p i hbound
  by_cases hp : p ∈ names
  · exact hnames p hp
  · rw [h.others p hp] at hbound
    exact hfs p i hbound

end

/-- A listing has the numbered files in the order of their numbers exactly if there
are at most as many as the conversion has room for. -/
theorem numbered_listing_iff {words : List CWord} {d : SeedDirective} {dir base after : Str}
    {spec : Printf.Spec} {fs fs' : BlackholeFS} {log : List Emsg}
    (hwords : (seedDirective words).2 = some d) (h : NumbersIn d dir base spec after)
    (hfs : fs.WellNamed) (hrun : cfgSeedfile words fs = some (true, fs', log)) :
    (seededChildren d).length = d.count.toNat ∧
      ((seededChildren d).Sublist (fs'.readdir dir []) ↔ d.count.toNat ≤ 10 ^ spec.room) := by
  obtain ⟨d', hd', hall⟩ := cfgSeedfile_true hrun
  obtain rfl : d = d' := Option.some.inj (hwords.symm.trans hd')
  obtain ⟨names, hlen, hseeds, hnames⟩ := seedAll_seeds hall
  have heq := h.names_eq hlen hnames
  have hfs' : fs'.WellNamed := by
    refine hseeds.wellNamed hfs fun p hp => ?_
    rw [heq] at hp
    obtain ⟨k, -, rfl⟩ := List.mem_map.mp hp
    exact h.dirPath.joinPath_wellFormed (h.child_plain k).1 (h.child_plain k).2
  have hchildren : seededChildren d =
      (List.range d.count.toNat).map (numberedChild base spec after) := by
    rw [seededChildren, seedNames_eq hlen hnames, heq, List.map_map]
    refine List.map_congr_left fun k _ => ?_
    rw [Function.comp_apply, joinPath_eq, nameOf_append (h.child_plain k).2]
  rw [hchildren, ← h.increasing_iff]
  refine ⟨by simp, fun hsub => (BlackholeFS.listing_increasing hfs' h.dirPath).sublist hsub,
    fun hsorted => ?_⟩
  refine List.sublist_of_subperm_of_pairwise (List.subperm_of_subset hsorted.nodup ?_) hsorted
    (BlackholeFS.listing_increasing hfs' h.dirPath)
  intro n hn
  obtain ⟨k, hk, rfl⟩ := List.mem_map.mp hn
  rw [BlackholeFS.mem_listing_iff hfs' h.dirPath]
  refine ⟨(h.child_plain k).2, hseeds.bound _ ?_⟩
  rw [heq]
  exact List.mem_map_of_mem hk

theorem numbered_listing_iff_three : ∃ fs' log,
    cfgSeedfile numberedWords {} = some (true, fs', log) ∧
      (seededChildren numberedDirective).Sublist (fs'.readdir ['/'] []) := by
  have htrue : (cfgSeedfile numberedWords {}).map Prod.fst = some true := by decide
  obtain ⟨⟨ok, fs', log⟩, hrun, rfl⟩ := Option.map_eq_some_iff.mp htrue
  have hread : Printf.directives numberedDirective.path.1 =
      some ([.lit '/', .lit 't', .lit '_'] ++ .conv ⟨['0'], .num 3, .none, .none, 'd'⟩ :: []) := by
    decide
  have hformat := Printf.IntFormat.of_directives hread (by decide) (by decide) (by decide)
    (by decide) (by decide) (by decide)
  have hnumbers : NumbersIn numberedDirective ['/'] ['t', '_']
      ⟨['0'], .num 3, .none, .none, 'd'⟩ [] :=
    ⟨⟨rfl, by decide⟩, hformat, by decide, by decide, by decide, by decide, by decide⟩
  refine ⟨fs', log, hrun, ?_⟩
  exact (numbered_listing_iff rfl hnumbers BlackholeFS.WellNamed.init hrun).2.mpr (by decide)

end XrdBlackhole
