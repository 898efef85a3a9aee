import XrdBlackhole.OssDir
import XrdBlackhole.Library.Components

/-!
# The children of a directory

`joinPath` is how a client builds the path of an entry. On well-formed names the
split in `readdir` is its inverse, so a listing has exactly the names which a join
leads to, in their order, and every file has one directory.
-/

namespace XrdBlackhole

def stem (d : Str) : Str := if d.getLast? = some '/' then d.dropLast else d

def joinPath (d n : Str) : Str := if d = ['/'] then '/' :: n else stem d ++ '/' :: n

structure WellFormed (p : Str) : Prop where
  absolute : p.head? = some '/'
  noDouble : ¬ ['/', '/'] <:+: p
  noTrailing : p.getLast? ≠ some '/'

instance (p : Str) : Decidable (WellFormed p) :=
  decidable_of_iff (p.head? = some '/' ∧ ¬ ['/', '/'] <:+: p ∧ p.getLast? ≠ some '/')
    ⟨fun h => ⟨h.1, h.2.1, h.2.2⟩, fun h => ⟨h.absolute, h.noDouble, h.noTrailing⟩⟩

/-- An absolute path without `//`, which then has at most one trailing slash; the
root is one. -/
structure DirPath (d : Str) : Prop where
  absolute : d.head? = some '/'
  noDouble : ¬ ['/', '/'] <:+: d

def SameDir (d d' : Str) : Prop := d' = d ∨ d' = d ++ ['/'] ∨ d = d' ++ ['/']

namespace BlackholeFS

def WellNamed (fs : BlackholeFS) : Prop := ∀ p i, fs.files[p]? = some i → WellFormed p

/-- These are the names which lead to a file of the directory, each of them once. -/
structure ExactListing (fs : BlackholeFS) (d : Str) (names : List Str) : Prop where
  increasing : names.Pairwise (· < ·)
  plain : ∀ n ∈ names, n ≠ [] ∧ '/' ∉ n
  complete : ∀ n, n ≠ [] → '/' ∉ n → (n ∈ names ↔ ∃ i, fs.files[joinPath d n]? = some i)

def Lists (fs : BlackholeFS) (d p : Str) : Prop := ∃ n ∈ fs.readdir d [], joinPath d n = p

end BlackholeFS

section
variable {d p pre name : Str}

theorem rfind_append {c : Char} (h : c ∉ name) :
    BlackholeFS.rfind (pre ++ c :: name) c = some pre.length := by
  have hnone : name.reverse.findIdx? (· == c) = none :=
    List.idxOf?_eq_none_iff.mpr (by simpa using h)
  have hidx : (pre ++ c :: name).reverse.idxOf? c = some name.length := by
    rw [List.reverse_append, List.reverse_cons, List.append_assoc, List.idxOf?,
      List.findIdx?_append, hnone]
    simp [List.findIdx?_cons]
  rw [BlackholeFS.rfind, hidx]
  simp

theorem nameOf_append (h : '/' ∉ name) : BlackholeFS.nameOf (pre ++ '/' :: name) = name := by
  simp [BlackholeFS.nameOf, rfind_append h]

def dirOf (pre : Str) : Str := if pre = [] then ['/'] else pre

theorem parentOf_append (h : '/' ∉ name) :
    BlackholeFS.parentOf (pre ++ '/' :: name) = dirOf pre := by
  simp [BlackholeFS.parentOf, rfind_append h, dirOf, List.length_eq_zero_iff]

theorem stem_cases (d : Str) : d = stem d ∨ d = stem d ++ ['/'] := by
  unfold stem
  split_ifs with hlast
  · exact .inr (List.dropLast_append_getLast? _ hlast).symm
  · exact .inl rfl

theorem joinPath_eq (d n : Str) : joinPath d n = stem d ++ '/' :: n := by
  unfold joinPath
  split_ifs with hroot
  · rw [hroot]
    rfl
  · rfl

theorem DirPath.ne_nil (hd : DirPath d) : d ≠ [] := by
  rintro rfl
  cases hd.absolute

theorem DirPath.normalise_eq (hd : DirPath d) : BlackholeFS.normalise d = dirOf (stem d) := by
  unfold BlackholeFS.normalise stem
  by_cases hlast : d.getLast? = some '/'
  · rw [if_pos hlast, dirOf]
    rcases Nat.lt_or_ge 1 d.length with hlong | hshort
    · have hne : d.dropLast ≠ [] := by
        rw [← List.length_pos_iff, List.length_dropLast]
        omega
      rw [if_pos ⟨hlong, hlast⟩, if_neg hne]
    · have hroot : d = ['/'] := by
        obtain ⟨c, rest, rfl⟩ := List.exists_cons_of_ne_nil hd.ne_nil
        obtain rfl : rest = [] := List.length_eq_zero_iff.mp (by simpa using hshort)
        simpa using hlast
      rw [hroot]
      rfl
  · rw [if_neg hlast, dirOf, if_neg hd.ne_nil, if_neg fun h => hlast h.2]

theorem dirOf_inj {pre pre' : Str} (h : pre ≠ ['/']) (h' : pre' ≠ ['/']) :
    dirOf pre = dirOf pre' ↔ pre = pre' := by
  unfold dirOf
  split_ifs with hnil hnil' hnil'
  · simp [hnil, hnil']
  · simp [hnil, Ne.symm hnil', Ne.symm h']
  · simp [hnil', hnil, h]
  · rfl

theorem DirPath.stem_ne_root (hd : DirPath d) : stem d ≠ ['/'] := by
  intro hstem
  rcases stem_cases d with h | h <;> rw [hstem] at h
  · rw [h] at hstem
    cases hstem
  · exact hd.noDouble (h ▸ List.infix_rfl)

theorem sameDir_of_stem {d' : Str} (h : stem d = stem d') : SameDir d d' := by
  rcases stem_cases d with hd | hd <;> rcases stem_cases d' with hd' | hd' <;> rw [← h] at hd'
  · exact .inl (hd'.trans hd.symm)
  · exact .inr (.inl (by rw [hd', ← hd]))
  · exact .inr (.inr (by rw [hd', ← hd]))
  · exact .inl (hd'.trans hd.symm)

theorem WellFormed.split (hp : WellFormed p) :
    ∃ pre name, p = pre ++ '/' :: name ∧ name ≠ [] ∧ '/' ∉ name ∧ pre.getLast? ≠ some '/' := by
  obtain ⟨pre, name, rfl, hname⟩ := Components.exists_last (List.mem_of_head? hp.absolute)
  refine ⟨pre, name, rfl, ?_, hname, fun hlast => ?_⟩
  · rintro rfl
    exact hp.noTrailing (by simp)
  · refine hp.noDouble ⟨pre.dropLast, name, ?_⟩
    calc pre.dropLast ++ ['/', '/'] ++ name
        = (pre.dropLast ++ ['/']) ++ '/' :: name := by simp
      _ = pre ++ '/' :: name := by rw [List.dropLast_append_getLast? _ hlast]

theorem WellFormed.nameOf_plain (hp : WellFormed p) :
    BlackholeFS.nameOf p ≠ [] ∧ '/' ∉ BlackholeFS.nameOf p := by
  obtain ⟨pre, name, rfl, hne, hname, -⟩ := hp.split
  rw [nameOf_append hname]
  exact ⟨hne, hname⟩

/-- The test of `readdir` says that joining the name again gives the path. -/
theorem WellFormed.parentOf_eq_iff (hp : WellFormed p) (hd : DirPath d) :
    BlackholeFS.parentOf p = BlackholeFS.normalise d ↔ joinPath d (BlackholeFS.nameOf p) = p := by
  obtain ⟨pre, name, rfl, -, hname, hlast⟩ := hp.split
  have hroot : pre ≠ ['/'] := by
    rintro rfl
    exact hlast rfl
  rw [nameOf_append hname, parentOf_append hname, hd.normalise_eq, dirOf_inj hroot hd.stem_ne_root,
    joinPath_eq, List.append_left_inj, eq_comm]

end

namespace BlackholeFS
variable {fs : BlackholeFS} {d p : Str}

theorem path_lt_iff (a b : Str) : compare a b = .lt ↔ a < b :=
  Components.compare_eq_lt_iff (fun _ _ => compareOfLessAndEq_eq_lt) a b

theorem WellNamed.init : ({} : BlackholeFS).WellNamed := fun p i h => by simp at h

theorem WellNamed.seed (hfs : fs.WellNamed) (hp : WellFormed p) (size : Word) (readtype : Str) :
    (fs.seed p size readtype).WellNamed := by
  intro q i hbound
  rw [seed_files] at hbound
  split_ifs at hbound with hnew
  · rw [hnew.1]
    exact hp
  · exact hfs q i hbound

theorem mem_listing_iff (hfs : fs.WellNamed) (hd : DirPath d) {n : Str} :
    n ∈ fs.readdir d [] ↔ '/' ∉ n ∧ ∃ i, fs.files[joinPath d n]? = some i := by
  rw [mem_readdir]
  constructor
  · rintro ⟨p, i, hbound, hparent, rfl⟩
    have hp := hfs p i hbound
    refine ⟨hp.nameOf_plain.2, i, ?_⟩
    rwa [(hp.parentOf_eq_iff hd).mp hparent]
  · rintro ⟨hn, i, hbound⟩
    have hp := hfs _ i hbound
    have hname : nameOf (joinPath d n) = n := by rw [joinPath_eq, nameOf_append hn]
    exact ⟨_, i, hbound, (hp.parentOf_eq_iff hd).mpr (by rw [hname]), hname⟩

theorem listing_increasing (hfs : fs.WellNamed) (hd : DirPath d) :
    (fs.readdir d []).Pairwise (· < ·) := by
  rw [readdir, List.nil_append, List.pairwise_filterMap]
  have hsorted : fs.files.toList.Pairwise fun a b => compare a.1 b.1 = .lt :=
    Std.ExtTreeMap.ordered_keys_toList
  refine hsorted.imp_of_mem fun {a b} ha hb hlt n hn n' hn' => ?_
  have hjoin : ∀ kv ∈ fs.files.toList, ∀ m, (if parentOf kv.1 = normalise d then
      some (nameOf kv.1) else none) = some m → kv.1 = stem d ++ '/' :: m := by
    intro kv hkv m hm
    split_ifs at hm with hparent
    obtain rfl := Option.some.inj hm
    have hp := hfs kv.1 kv.2 (Std.ExtTreeMap.mem_toList_iff_getElem?_eq_some.mp hkv)
    rw [← joinPath_eq]
    exact ((hp.parentOf_eq_iff hd).mp hparent).symm
  rw [path_lt_iff, hjoin a ha n hn, hjoin b hb n' hn', Components.append_lt_append_iff] at hlt
  simpa using hlt

theorem exactListing (hfs : fs.WellNamed) (hd : DirPath d) :
    fs.ExactListing d (fs.readdir d []) := by
  refine ⟨listing_increasing hfs hd, fun n hn => ?_, fun n _ hn => ?_⟩
  · obtain ⟨p, i, hbound, -, rfl⟩ := mem_readdir.mp hn
    exact (hfs p i hbound).nameOf_plain
  · rw [mem_listing_iff hfs hd]
    exact and_iff_right hn

theorem lists_unique {d' : Str} (hfs : fs.WellNamed) (hd : DirPath d) (hd' : DirPath d')
    (h : fs.Lists d p) (h' : fs.Lists d' p) : SameDir d d' := by
  obtain ⟨n, hn, hjoin⟩ := h
  obtain ⟨n', hn', hjoin'⟩ := h'
  rw [mem_listing_iff hfs hd] at hn
  rw [mem_listing_iff hfs hd'] at hn'
  rw [← hjoin', joinPath_eq, joinPath_eq] at hjoin
  exact sameDir_of_stem (Components.last_unique hn.1 hn'.1 hjoin).1

theorem exists_lists (hfs : fs.WellNamed) {i : ℕ} (hbound : fs.files[p]? = some i) :
    ∃ d, DirPath d ∧ fs.Lists d p := by
  have hp := hfs p i hbound
  obtain ⟨pre, name, rfl, -, hname, hlast⟩ := hp.split
  have hdir : DirPath (dirOf pre) := by
    unfold dirOf
    split_ifs with hnil
    · exact ⟨rfl, fun h => absurd h.length_le (by decide)⟩
    · refine ⟨?_, fun hdouble => hp.noDouble (hdouble.trans (List.prefix_append _ _).isInfix)⟩
      rw [← hp.absolute, List.head?_append_of_ne_nil _ hnil]
  have hstem : stem (dirOf pre) = pre := by
    unfold dirOf
    split_ifs with hnil
    · rw [hnil]
      rfl
    · rw [stem, if_neg hlast]
  have hjoin : joinPath (dirOf pre) name = pre ++ '/' :: name := by rw [joinPath_eq, hstem]
  refine ⟨dirOf pre, hdir, name, ?_, hjoin⟩
  rw [mem_listing_iff hfs hdir, hjoin]
  exact ⟨hname, i, hbound⟩

theorem readdir_slash (fs : BlackholeFS) (hd : DirPath d) (hslash : DirPath (d ++ ['/']))
    (entries : List Str) : fs.readdir (d ++ ['/']) entries = fs.readdir d entries := by
  have hlast : d.getLast? ≠ some '/' := by
    intro hlast
    refine hslash.noDouble ⟨d.dropLast, [], ?_⟩
    calc d.dropLast ++ ['/', '/'] ++ [] = (d.dropLast ++ ['/']) ++ ['/'] := by simp
      _ = d ++ ['/'] := by rw [List.dropLast_append_getLast? _ hlast]
  have hstem : stem (d ++ ['/']) = stem d := by
    rw [stem, stem, if_pos (by simp), if_neg hlast, List.dropLast_concat]
  have hsame : normalise (d ++ ['/']) = normalise d := by
    rw [hslash.normalise_eq, hd.normalise_eq, hstem]
  rw [readdir, readdir, hsame]

end BlackholeFS

/-- On well-formed names, a directory lists exactly the files which a join leads to,
in byte order, every file is listed by one directory up to the trailing slash, and
the slash makes no difference to a listing. -/
theorem readdir_exact (fs : BlackholeFS) (hfs : fs.WellNamed) :
    (∀ d, DirPath d → ∀ entries, ∃ names,
        fs.readdir d entries = entries ++ names ∧ fs.ExactListing d names) ∧
      (∀ p i, fs.files[p]? = some i → ∃ d, DirPath d ∧ fs.Lists d p ∧
        ∀ d', DirPath d' → fs.Lists d' p → SameDir d d') ∧
      ∀ d, DirPath d → DirPath (d ++ ['/']) → ∀ entries,
        fs.readdir (d ++ ['/']) entries = fs.readdir d entries := by
  refine ⟨fun d hd entries => ?_, fun p i hbound => ?_, fun d hd hslash => ?_⟩
  · exact ⟨fs.readdir d [], rfl, BlackholeFS.exactListing hfs hd⟩
  · obtain ⟨d, hd, hlists⟩ := BlackholeFS.exists_lists hfs hbound
    exact ⟨d, hd, hlists, fun d' hd' => BlackholeFS.lists_unique hfs hd hd' hlists⟩
  · exact fs.readdir_slash hd hslash

def testFiles : BlackholeFS :=
  (({} : BlackholeFS).seed "/test2/b".toList 0 zeros).seed "/test/b".toList 0 zeros
    |>.seed "/test/a".toList 0 zeros

theorem readdir_exact_test : testFiles.ExactListing "/test".toList ["a".toList, "b".toList] := by
  have hfiles : testFiles.WellNamed :=
    ((BlackholeFS.WellNamed.init.seed (by decide) _ _).seed (by decide) _ _).seed (by decide) _ _
  obtain ⟨names, hnames, hexact⟩ := (readdir_exact testFiles hfiles).1 "/test".toList
    ⟨rfl, by decide⟩ []
  have htwo : names = ["a".toList, "b".toList] := hnames.symm.trans (by decide)
  rwa [htwo] at hexact

end XrdBlackhole
