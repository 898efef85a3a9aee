import XrdBlackhole.Namespace

/-!
# Rename as an atomic replace

The three changes of the map in `rename` compose to one update, for every aliasing
of the two paths. Its inverse and the number of files follow from the update alone.
-/

namespace XrdBlackhole

namespace BlackholeFS
variable {fs fs' : BlackholeFS} {src dst : Str} {i : ℕ}

structure Replaced (fs fs' : BlackholeFS) (src dst : Str) (i : ℕ) : Prop where
  bound : ∀ q : Str, fs'.files[q]? =
    if q = dst then some i else if q = src then none else fs.files[q]?
  stubs : fs'.stubs = fs.stubs
  fdLast : fs'.fdLast = fs.fdLast
  size : fs'.files.size + (if fs.files[dst]? ≠ none ∧ dst ≠ src then 1 else 0) = fs.files.size

theorem ext_of_files (hfiles : ∀ q : Str, fs'.files[q]? = fs.files[q]?)
    (hfd : fs'.fdLast = fs.fdLast) (hstubs : fs'.stubs = fs.stubs) : fs' = fs := by
  have hmap : fs'.files = fs.files := Std.ExtTreeMap.ext_getElem? hfiles
  cases fs
  cases fs'
  simp_all

theorem size_erase_of_bound {m : Files} {k : Str} (h : m[k]? ≠ none) :
    (m.erase k).size + 1 = m.size := by
  have hmem : k ∈ m := Std.ExtTreeMap.isSome_getElem?_iff_mem.mp (Option.isSome_iff_ne_none.mpr h)
  have hpos : 0 < m.size := by
    rw [Nat.pos_iff_ne_zero]
    intro hzero
    have hempty := Std.ExtTreeMap.eq_empty_iff_size_eq_zero.mpr hzero
    simp [hempty] at h
  rw [Std.ExtTreeMap.size_erase, if_pos (Std.ExtTreeMap.contains_iff_mem.mpr hmem)]
  omega

theorem size_insertIfNew_of_unbound {m : Files} {k : Str} (h : m[k]? = none) (v : ℕ) :
    (m.insertIfNew k v).size = m.size + 1 := by
  have hnot : k ∉ m := by
    rw [← Std.ExtTreeMap.isSome_getElem?_iff_mem, h]
    exact Bool.false_ne_true
  rw [Std.ExtTreeMap.size_insertIfNew, if_neg hnot]

theorem rename_size (h : fs.files[src]? = some i) (dst : Str) :
    (fs.rename src dst).2.files.size + (if fs.files[dst]? ≠ none ∧ dst ≠ src then 1 else 0) =
      fs.files.size := by
  have hfresh : (fs.files.erase dst)[dst]? = none := by rw [files_erase, if_pos rfl]
  have hinsert := size_insertIfNew_of_unbound hfresh i
  simp only [BlackholeFS.rename, h]
  by_cases hsame : src = dst
  · subst hsame
    have herase := size_erase_of_bound (m := fs.files) (k := src) (by simp [h])
    simp only [ne_eq, not_true_eq_false, and_false, if_false]
    omega
  · have hmoved : ((fs.files.erase dst).insertIfNew dst i)[src]? ≠ none := by
      rw [files_replace, if_neg hsame, h]
      exact Option.some_ne_none i
    have herase := size_erase_of_bound hmoved
    simp only [ne_eq, hsame, not_false_eq_true, if_true, Ne.symm hsame, and_true]
    by_cases hdst : fs.files[dst]? = none
    · rw [erase_of_unbound hdst] at hinsert herase ⊢
      rw [if_neg (not_not.mpr hdst)]
      omega
    · have hdrop := size_erase_of_bound hdst
      rw [if_pos hdst]
      omega

theorem rename_replaced (h : fs.files[src]? = some i) (dst : Str) :
    Replaced fs (fs.rename src dst).2 src dst i :=
  ⟨rename_bound h, fs.rename_stubs src dst, fs.rename_fdLast src dst, rename_size h dst⟩

theorem rename_self (fs : BlackholeFS) (p : Str) : (fs.rename p p).2 = fs := by
  cases h : fs.files[p]? with
  | none => rw [rename_unbound h]
  | some i =>
    refine ext_of_files (fun q => ?_) (fs.rename_fdLast p p) (fs.rename_stubs p p)
    rw [rename_bound h]
    by_cases hq : q = p
    · rw [if_pos hq, hq, h]
    · rw [if_neg hq, if_neg hq]

theorem rename_back (hdst : fs.files[dst]? = none) :
    ((fs.rename src dst).2.rename dst src).2 = fs := by
  cases hsrc : fs.files[src]? with
  | none => rw [rename_unbound hsrc, rename_unbound hdst]
  | some i =>
    have hbound : ∀ q : Str, (fs.rename src dst).2.files[q]? =
        if q = dst then some i else if q = src then none else fs.files[q]? := rename_bound hsrc
    have hmoved : (fs.rename src dst).2.files[dst]? = some i := by rw [hbound, if_pos rfl]
    refine ext_of_files (fun q => ?_) (by rw [rename_fdLast, rename_fdLast])
      (by rw [rename_stubs, rename_stubs])
    rw [rename_bound hmoved, hbound]
    by_cases hqs : q = src
    · rw [if_pos hqs, hqs, hsrc]
    · by_cases hqd : q = dst
      · rw [if_neg hqs, if_pos hqd, hqd, hdst]
      · rw [if_neg hqs, if_neg hqd, if_neg hqd, if_neg hqs]

end BlackholeFS

/-- `rename` fails on an absent path and changes nothing, and otherwise replaces the
destination in one update. It is the identity on a path and itself, and undone by the
opposite rename if the destination was absent. -/
theorem rename_atomic (fs : BlackholeFS) (src dst : Str) :
    (fs.files[src]? = none → fs.rename src dst = (-ENOENT, fs)) ∧
      (∀ i, fs.files[src]? = some i → (fs.rename src dst).1 = 0 ∧
        fs.Replaced (fs.rename src dst).2 src dst i) ∧
      (fs.files[src]? ≠ none → fs.rename src src = (0, fs)) ∧
      (fs.files[dst]? = none → ((fs.rename src dst).2.rename dst src).2 = fs) := by
  have hrc : ∀ i, fs.files[src]? = some i → ∀ p, (fs.rename src p).1 = 0 := by
    intro i hsrc p
    simp only [BlackholeFS.rename, hsrc]
  refine ⟨BlackholeFS.rename_unbound, fun i hsrc => ?_, fun hsrc => ?_, BlackholeFS.rename_back⟩
  · exact ⟨hrc i hsrc dst, BlackholeFS.rename_replaced hsrc dst⟩
  · obtain ⟨i, hi⟩ := Option.ne_none_iff_exists'.mp hsrc
    exact Prod.ext (hrc i hi src) (fs.rename_self src)

end XrdBlackhole
