import XrdBlackhole.Directives
import XrdBlackhole.Listing
import XrdBlackhole.StubStep

/-!
# The default files

`create_defaults` appends its suffixes to the configured path as it stands, while
`readdir` and the clients drop a trailing slash. The default files are found under
every absolute path without one, and under no other.
-/

namespace XrdBlackhole

namespace BlackholeFS

def defaultName (spec : Str × Word) : Str := spec.1.tail

structure DefaultsFound (fs : BlackholeFS) (p : Str) : Prop where
  found : ∀ spec ∈ specs, defaultName spec ∈ fs.readdir p [] ∧
    ∃ i, fs.getStub (joinPath p (defaultName spec)) = some i ∧
      (fs.stubs.get i).size = spec.2 ∧ (fs.stubs.get i).stat.size = spec.2
  opens : ∀ n ∈ fs.readdir p [], ∃ i, fs.getStub (joinPath p n) = some i

/-- No default file of the path is there yet, neither where the code puts it nor
where a client looks for it. -/
def NoCollision (fs : BlackholeFS) (p : Str) : Prop :=
  ∀ spec ∈ specs, fs.getStub (p ++ spec.1) = none ∧
    fs.getStub (joinPath p (defaultName spec)) = none

variable {fs : BlackholeFS} {path p q : Str}

theorem seedSpecs_others (specs : List (Str × Word)) (hq : ∀ spec ∈ specs, q ≠ path ++ spec.1) :
    (fs.seedSpecs path specs).files[q]? = fs.files[q]? := by
  induction specs generalizing fs with
  | nil => rfl
  | cons spec specs ih =>
    rw [List.forall_mem_cons] at hq
    have hrest : (fs.seedSpecs path (spec :: specs)).files[q]? =
        (fs.seed (path ++ spec.1) spec.2 zeros).files[q]? := ih hq.2
    rw [hrest, seed_files, if_neg fun h => hq.1 h.1]

theorem seedSpecs_kept {i : ℕ} (hq : fs.files[q]? = some i) (hi : i < fs.stubs.next)
    (path : Str) (specs : List (Str × Word)) :
    (fs.seedSpecs path specs).files[q]? = some i ∧
      (fs.seedSpecs path specs).stubs.get i = fs.stubs.get i := by
  induction specs generalizing fs with
  | nil => exact ⟨hq, rfl⟩
  | cons spec specs ih =>
    have hseed : (fs.seed (path ++ spec.1) spec.2 zeros).files[q]? = some i :=
      (seed_bound_iff hi _ _ _ _).mpr hq
    obtain ⟨hbound, hget⟩ := ih hseed (Nat.lt_succ_of_lt hi)
    exact ⟨hbound, hget.trans (fs.stubs.alloc_get_of_lt _ hi)⟩

theorem seedSpecs_found {specs : List (Str × Word)} (hnames : (specs.map Prod.fst).Nodup)
    (hfree : ∀ spec ∈ specs, fs.files[path ++ spec.1]? = none) {spec : Str × Word}
    (hspec : spec ∈ specs) :
    ∃ i, (fs.seedSpecs path specs).files[path ++ spec.1]? = some i ∧
      ((fs.seedSpecs path specs).stubs.get i).size = spec.2 ∧
      ((fs.seedSpecs path specs).stubs.get i).stat.size = spec.2 := by
  induction specs generalizing fs with
  | nil => cases hspec
  | cons first specs ih =>
    rw [List.map_cons, List.nodup_cons] at hnames
    rw [List.forall_mem_cons] at hfree
    rcases List.mem_cons.mp hspec with rfl | hspec
    · have hbound : (fs.seed (path ++ spec.1) spec.2 zeros).files[path ++ spec.1]? =
          some fs.stubs.next := by rw [seed_files, if_pos ⟨rfl, hfree.1⟩]
      obtain ⟨hkept, hget⟩ := seedSpecs_kept hbound (Nat.lt_succ_self _) path specs
      refine ⟨fs.stubs.next, hkept, ?_⟩
      rw [seedSpecs, List.foldl_cons, ← seedSpecs, hget]
      simp [seed]
    · refine ih hnames.2 (fun s hs => ?_) hspec
      rw [seed_files, if_neg, hfree.2 s hs]
      rintro ⟨heq, -⟩
      refine hnames.1 ?_
      rw [← List.append_cancel_left heq]
      exact List.mem_map_of_mem hs

theorem specs_suffix :
    ∀ spec ∈ specs, spec.1 = '/' :: defaultName spec ∧ '/' ∉ defaultName spec := by
  decide

theorem parentOf_of_no_slash (h : '/' ∉ p) : parentOf p = p := by
  have hnone : p.reverse.idxOf? '/' = none := List.idxOf?_eq_none_iff.mpr (by simpa using h)
  simp [parentOf, rfind, hnone]

section
variable (habs : p.head? = some '/') (hlast : p.getLast? ≠ some '/')
include habs hlast

theorem dirOf_normalise : dirOf p = p ∧ normalise p = p ∧ stem p = p := by
  have hne : p ≠ [] := by
    rintro rfl
    cases habs
  exact ⟨if_neg hne, if_neg fun h => hlast h.2, if_neg hlast⟩

theorem joinPath_suffix {spec : Str × Word} (hspec : spec ∈ specs) :
    joinPath p (defaultName spec) = p ++ spec.1 := by
  rw [joinPath_eq, (dirOf_normalise habs hlast).2.2, ← (specs_suffix spec hspec).1]

theorem listed_under (h : parentOf q = normalise p) : joinPath p (nameOf q) = q := by
  obtain ⟨-, hnorm, hstem⟩ := dirOf_normalise habs hlast
  rw [hnorm] at h
  have hslash : '/' ∈ q := by
    by_contra hnone
    rw [parentOf_of_no_slash hnone] at h
    exact hnone (h ▸ List.mem_of_head? habs)
  obtain ⟨pre, name, rfl, hname⟩ := Components.exists_last hslash
  rw [parentOf_append hname, dirOf] at h
  split_ifs at h with hnil
  · exact absurd (by rw [← h]; rfl) hlast
  · rw [nameOf_append hname, joinPath_eq, hstem, h]

theorem defaults_listed {spec : Str × Word} (hspec : spec ∈ specs) {i : ℕ}
    (hbound : fs.files[p ++ spec.1]? = some i) : defaultName spec ∈ fs.readdir p [] := by
  obtain ⟨hdir, hnorm, -⟩ := dirOf_normalise habs hlast
  obtain ⟨hsuffix, hname⟩ := specs_suffix spec hspec
  rw [hsuffix] at hbound
  refine mem_readdir.mpr ⟨_, i, hbound, ?_, nameOf_append hname⟩
  rw [parentOf_append hname, hdir, hnorm]

theorem defaults_found (hfree : fs.NoCollision p) : (fs.createDefaults p).DefaultsFound p := by
  refine ⟨fun spec hspec => ?_, fun n hn => ?_⟩
  · have hseed : ∀ s ∈ specs, fs.files[p ++ s.1]? = none := fun s hs => (hfree s hs).1
    obtain ⟨i, hbound, hsize⟩ := seedSpecs_found (by decide) hseed hspec
    refine ⟨defaults_listed habs hlast hspec hbound, i, ?_, hsize⟩
    rw [joinPath_suffix habs hlast hspec]
    exact hbound
  · obtain ⟨q, i, hbound, hparent, rfl⟩ := mem_readdir.mp hn
    refine ⟨i, ?_⟩
    rw [listed_under habs hlast hparent]
    exact hbound

end

theorem defaults_lost (hlast : p.getLast? = some '/') (hfree : fs.NoCollision p) :
    ¬ (fs.createDefaults p).DefaultsFound p := by
  intro hfound
  obtain ⟨first, hfirst⟩ : ∃ spec, spec ∈ specs := ⟨_, List.mem_cons_self⟩
  obtain ⟨-, i, hbound, -⟩ := hfound.found first hfirst
  have hnew : ∀ spec ∈ specs, joinPath p (defaultName first) ≠ p ++ spec.1 := by
    intro spec hspec heq
    have hslash : p ++ spec.1 = stem p ++ '/' :: spec.1 := by
      rw [List.append_cons, stem, if_pos hlast, List.dropLast_append_getLast? _ hlast]
    rw [joinPath_eq, hslash] at heq
    have hname : defaultName first = spec.1 := (List.cons.inj (List.append_cancel_left heq)).2
    refine (specs_suffix first hfirst).2 ?_
    rw [hname, (specs_suffix spec hspec).1]
    exact List.mem_cons_self
  have hsame : fs.files[joinPath p (defaultName first)]? = some i :=
    (seedSpecs_others specs hnew).symm.trans hbound
  cases (hfree first hfirst).2.symm.trans hsame

end BlackholeFS

/-- The default files of an absolute path are found exactly when the path has no
trailing slash. -/
theorem defaults_found_iff (oss : Oss) (fs : BlackholeFS) (p : CWord) (rest : List CWord)
    (habs : p.1.head? = some '/') (hfree : fs.NoCollision p.1) :
    (cfgDefaultspath oss fs (p :: rest)).2.2.1.DefaultsFound p.1 ↔ p.1.getLast? ≠ some '/' := by
  constructor
  · exact fun hfound hlast => BlackholeFS.defaults_lost hlast hfree hfound
  · exact fun hlast => BlackholeFS.defaults_found habs hlast hfree

def testPath : CWord := ⟨"/test".toList, by decide⟩

theorem defaults_found_iff_test :
    (cfgDefaultspath {} {} [testPath]).2.2.1.DefaultsFound testPath.1 := by
  refine (defaults_found_iff {} {} testPath [] rfl fun spec _ => ?_).mpr (by decide)
  simp [BlackholeFS.getStub]

def dataPath : CWord := ⟨"/data/".toList, by decide⟩

theorem trailing_slash_loses_defaults :
    ¬ (cfgDefaultspath {} {} [dataPath]).2.2.1.DefaultsFound dataPath.1 := by
  intro hfound
  obtain ⟨-, i, hbound, -⟩ := hfound.found _ List.mem_cons_self
  have hnone : (cfgDefaultspath {} {} [dataPath]).2.2.1.getStub
      (joinPath dataPath.1 "testfile_zeros_1MiB".toList) = none := by decide
  cases hnone.symm.trans hbound

end XrdBlackhole
