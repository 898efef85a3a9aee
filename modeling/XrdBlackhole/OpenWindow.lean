import XrdBlackhole.Sessions

/-!
# The window inside `Open`

`Open` locks the namespace twice, once to open the path and once to fetch the stub
bound there. `openWindow` lets other clients operate between the two. The handle
holds the stub which it opened exactly when these operations bring that stub back
to the path, and then no later call misses it.
-/

namespace XrdBlackhole

namespace OssFile

/-- `Open` with the operations `cs` of other clients between its critical sections. -/
def openWindow (f : OssFile) (fs : BlackholeFS) (path : Str) (flags mode : CInt)
    (cs : List FsCall) : ℤ × BlackholeFS × OssFile :=
  let f := { f with path := path }
  let r := fs.open path flags mode
  let fs := BlackholeFS.machine.exec r.2 cs
  if r.1 < 0 then (r.1, fs, f) else (XrdOssOK, fs, f.adopt fs path flags)

structure Serves (f : OssFile) (i : ℕ) : Prop where
  stub : f.stub = some i
  close (fs : BlackholeFS) (mgr : Snapshot) : (f.close fs mgr).1 = XrdOssOK
  fstat (fs : BlackholeFS) : (f.fstat fs).1 = XrdOssOK
  read (mem : Mem) (buff : ℕ) (offset blen : Word) :
    (f.read mem buff offset blen).2.2.errors = f.errors
  preposition : f.preposition = (XrdOssOK, f)

variable {f : OssFile} {fs : BlackholeFS} {path : Str} {flags mode : CInt} {cs : List FsCall}

theorem openWindow_nil : f.openWindow fs path flags mode [] = f.open fs path flags mode := rfl

theorem openWindow_ok (hok : (f.openWindow fs path flags mode cs).1 = XrdOssOK) :
    0 ≤ (fs.open path flags mode).1 ∧
      (f.openWindow fs path flags mode cs).2.2.stub =
        (BlackholeFS.machine.exec (fs.open path flags mode).2 cs).files[path]? := by
  unfold openWindow at hok ⊢
  rcases lt_or_ge (fs.open path flags mode).1 0 with hrc | hrc
  · rw [if_pos hrc] at hok
    exact absurd hok hrc.ne
  · rw [if_neg (not_lt.mpr hrc)]
    exact ⟨hrc, rfl⟩

theorem serves_iff {i : ℕ} : f.Serves i ↔ f.stub = some i := by
  refine ⟨fun h => h.stub, fun hstub => ⟨hstub, fun fs mgr => ?_, fun fs => ?_, ?_, ?_⟩⟩
  · rw [close_some hstub]
  · simp only [OssFile.fstat, hstub]
  · intro mem buff offset blen
    rw [read_some hstub]
    split_ifs <;> rfl
  · exact preposition_some hstub

/-- For every namespace which is reached by the operations `pre` and all operations
`cs` in the window. -/
theorem openWindow_serves_iff (pre cs : List FsCall) (f : OssFile) (path : Str)
    (flags mode : CInt)
    (hok : (f.openWindow (BlackholeFS.machine.exec {} pre) path flags mode cs).1 = XrdOssOK) :
    (∃ i, ((BlackholeFS.machine.exec {} pre).open path flags mode).2.files[path]? = some i ∧
      (f.openWindow (BlackholeFS.machine.exec {} pre) path flags mode cs).2.2.Serves i) ↔
      ((BlackholeFS.machine.exec {} pre).open path flags mode).2.follow path cs = some path := by
  have hsound := BlackholeFS.Sound.init.exec pre
  generalize BlackholeFS.machine.exec {} pre = fs at hok hsound
  obtain ⟨hrc, hstub⟩ := openWindow_ok hok
  obtain ⟨i, hi⟩ := BlackholeFS.open_bound (BlackholeFS.not_refused_of_rc hrc) mode
  have hopened := hsound.open path flags mode
  have hspec := BlackholeFS.follow_spec (hopened.bound hi) cs path
  simp only [serves_iff, hstub, hi, Option.some.injEq]
  refine ⟨fun ⟨j, hj, hheld⟩ => ?_, fun hfollow => ?_⟩
  · obtain ⟨p, hp, hfollow⟩ := hspec.mp (hj ▸ hheld)
    rwa [hopened.distinct hp hi] at hfollow
  · exact ⟨i, rfl, hspec.mpr ⟨path, hi, hfollow⟩⟩

theorem openWindow_serves_after_close :
    ∃ i, ((BlackholeFS.machine.exec {} []).open "/f".toList O_WRONLY 0).2.files["/f".toList]? =
        some i ∧
      (openWindow {} (BlackholeFS.machine.exec {} []) "/f".toList O_WRONLY 0
        [.fsOpen "/f".toList O_WRONLY 0, .fsClose "/f".toList]).2.2.Serves i :=
  (openWindow_serves_iff [] _ {} "/f".toList O_WRONLY 0 rfl).mpr (by decide)

theorem openWindow_serves_other_file :
    (openWindow {} {} "/f".toList O_WRONLY 0
        [.ns (.unlink "/f".toList), .fsOpen "/f".toList O_WRONLY 0]).1 = XrdOssOK ∧
      ¬ ∃ i, (({} : BlackholeFS).open "/f".toList O_WRONLY 0).2.files["/f".toList]? = some i ∧
        (openWindow {} {} "/f".toList O_WRONLY 0
          [.ns (.unlink "/f".toList), .fsOpen "/f".toList O_WRONLY 0]).2.2.Serves i := by
  refine ⟨rfl, ?_⟩
  rintro ⟨i, hi, hserves⟩
  obtain rfl : 0 = i := Option.some.inj hi
  exact absurd hserves.stub (by decide)

end OssFile

end XrdBlackhole
