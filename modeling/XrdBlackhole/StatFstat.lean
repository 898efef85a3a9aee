import XrdBlackhole.StubStep

/-!
# `Stat` by path and `Fstat` by handle

Both report the metadata of the stub, and only `Fstat` adds the type and mode bits,
which no stub has. In every reachable world they agree on the size, the inode and the
device of a file and never on its mode.
-/

namespace XrdBlackhole

def BlackholeFS.NoMode (fs : BlackholeFS) : Prop := ∀ i, (fs.stubs.get i).stat.mode = 0

structure SameFileReported (byPath byHandle : ℤ × StatBuf) : Prop where
  statOk : byPath.1 = 0
  fstatOk : byHandle.1 = XrdOssOK
  mode : byPath.2.mode = byHandle.2.mode
  regular : byPath.2.mode &&& S_IFREG ≠ 0
  size : byPath.2.size = byHandle.2.size
  ino : byPath.2.ino = byHandle.2.ino
  dev : byPath.2.dev = byHandle.2.dev

namespace World
variable {w : World}

theorem noMode_step (hw : w.fs.NoMode) (c : Call) : (w.step c).1.fs.NoMode := by
  intro i
  have hstep := w.step_stub c i
  generalize (w.step c).1.fs.stubs.get i = s' at hstep
  cases hstep with
  | same hsame => rw [hsame.stat, hw i]
  | seeded path size readtype ino => rfl
  | default path spec ino hspec => rfl
  | created h path flags mode ino => rfl
  | stored h hsame =>
    rw [hsame.stat]
    exact hw i

theorem noMode_exec (cs : List Call) : (machine.exec {} cs).fs.NoMode := by
  have hstart : ({} : World).fs.NoMode := fun _ => rfl
  exact Machine.exec_invariant (M := machine) (I := fun w => w.fs.NoMode)
    (fun _ c hw => noMode_step hw c) hstart cs

theorem stat_of_bound {p : Str} {i : ℕ} (hp : w.fs.getStub p = some i) :
    w.stat p = (0, (w.fs.stubs.get i).stat) := by
  simp only [World.stat, hp]

theorem fstat_of_open {f : OssFile} {i : ℕ} (hopen : f.stub = some i) (fs : BlackholeFS) :
    f.fstat fs = (XrdOssOK, { (fs.stubs.get i).stat with mode := 0o666 ||| S_IFREG }) := by
  simp only [OssFile.fstat, hopen]

end World

/-- In every reachable world, `Stat` of a path and `Fstat` of a handle on the same stub
succeed with one size, inode and device, and with different modes. -/
theorem stat_fstat_differ (cs : List Call) (p : Str) (h i : ℕ)
    (hp : (World.machine.exec {} cs).fs.getStub p = some i)
    (hopen : ((World.machine.exec {} cs).file h).stub = some i) :
    let w := World.machine.exec {} cs
    let byPath := w.stat p
    let byHandle := (w.file h).fstat w.fs
    (byPath.1 = 0 ∧ byHandle.1 = XrdOssOK ∧ byPath.2.size = byHandle.2.size ∧
        byPath.2.ino = byHandle.2.ino ∧ byPath.2.dev = byHandle.2.dev) ∧
      ¬ SameFileReported byPath byHandle := by
  intro w byPath byHandle
  have hstat : byPath = (0, (w.fs.stubs.get i).stat) := World.stat_of_bound hp
  have hfstat : byHandle = _ := World.fstat_of_open hopen w.fs
  refine ⟨?_, fun hsame => hsame.regular ?_⟩
  · rw [hstat, hfstat]
    exact ⟨rfl, rfl, rfl, rfl, rfl⟩
  · rw [hstat, World.noMode_exec cs i]
    rfl

def renamedFile : List Call :=
  [.fileOpen 0 "/a".toList O_WRONLY 0o644, .io 0 (.write 0 5),
   .ns (.rename "/a".toList "/b".toList)]

theorem stat_fstat_differ_renamed :
    let w := World.machine.exec {} renamedFile
    (w.stat "/b".toList).2.ino = ((w.file 0).fstat w.fs).2.ino ∧
      ¬ SameFileReported (w.stat "/b".toList) ((w.file 0).fstat w.fs) := by
  intro w
  obtain ⟨⟨-, -, -, hino, -⟩, hdiffer⟩ := stat_fstat_differ renamedFile "/b".toList 0 0 rfl rfl
  exact ⟨hino, hdiffer⟩

def openedSeed : List Call :=
  [.ns (.seed "/f".toList 10 zeros), .fileOpen 0 "/f".toList O_RDONLY 0]

theorem stat_reports_no_type :
    let w := World.machine.exec {} openedSeed
    w.fs.getStub "/f".toList = (w.file 0).stub ∧
      ((w.file 0).fstat w.fs).2.mode &&& S_IFREG ≠ 0 ∧
      ¬ SameFileReported (w.stat "/f".toList) ((w.file 0).fstat w.fs) := by
  intro w
  refine ⟨rfl, by decide, fun hsame => ?_⟩
  exact absurd hsame.regular (by decide)

end XrdBlackhole
