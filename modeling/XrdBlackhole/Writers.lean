import XrdBlackhole.Sessions

/-!
# Open handles and the flag of a stub

`Holds` and `OpenWriter` say which handles are open on a stub. The step lemmas
say how each call changes these relations and the flag `m_isOpenWrite`.
-/

namespace XrdBlackhole

namespace World
variable {w : World} {g h i : ℕ} {path : Str} {flags mode : CInt}

def Holds (w : World) (h i : ℕ) : Prop := (w.file h).stub = some i

def OpenWriter (w : World) (h i : ℕ) : Prop :=
  (w.file h).stub = some i ∧ (w.file h).stats.wasWrite = true

def Flagged (w : World) (i : ℕ) : Prop := (w.fs.stubs.get i).isOpenWrite = true

/-- The stub outlives a `Close` of `h`: it has a path or another holder. -/
def Shared (w : World) (h i : ℕ) : Prop :=
  (∃ p : Str, w.fs.files[p]? = some i) ∨ ∃ g, g ≠ h ∧ w.Holds g i

theorem OpenWriter.holds (hw : w.OpenWriter h i) : w.Holds h i := hw.1

theorem open_holds_failed (hrc : (w.fs.open path flags mode).1 < 0) :
    ((w.step (.fileOpen h path flags mode)).1.Holds g i ↔ w.Holds g i) ∧
      ((w.step (.fileOpen h path flags mode)).1.OpenWriter g i ↔ w.OpenWriter g i) := by
  simp only [Holds, OpenWriter, step_open_file, OssFile.open_file_failed hrc]
  split_ifs with hg
  · simp [hg]
  · simp

theorem open_holds_ok (hrc : 0 ≤ (w.fs.open path flags mode).1) :
    ((w.step (.fileOpen h path flags mode)).1.Holds g i ↔
        if g = h then (w.fs.open path flags mode).2.files[path]? = some i else w.Holds g i) ∧
      ((w.step (.fileOpen h path flags mode)).1.OpenWriter g i ↔
        if g = h then (w.fs.open path flags mode).2.files[path]? = some i ∧ ¬ readOnly flags
        else w.OpenWriter g i) := by
  simp only [Holds, OpenWriter, step_open_file, OssFile.open_file_ok hrc]
  split_ifs with hg
  · simp [OssFile.adopt, BlackholeFS.getStub]
  · simp

theorem close_holds :
    ((w.step (.fileClose h)).1.Holds g i ↔ g ≠ h ∧ w.Holds g i) ∧
      ((w.step (.fileClose h)).1.OpenWriter g i ↔ g ≠ h ∧ w.OpenWriter g i) := by
  simp only [Holds, OpenWriter, step_close_file]
  split_ifs with hg
  · simp [hg, ((w.file h).close_session w.fs w.mgr).2.2.2.2]
  · simp [hg]

theorem io_holds (c : IoCall) :
    ((w.step (.io h c)).1.Holds g i ↔ w.Holds g i) ∧
      ((w.step (.io h c)).1.OpenWriter g i ↔ w.OpenWriter g i) := by
  have hsession := w.step_io_session h g c
  simp only [Holds, OpenWriter, hsession.stub, hsession.stats, iff_self, and_self]

theorem ns_flagged (hi : i < w.fs.stubs.next) (c : NsCall) :
    (w.step (.ns c)).1.Flagged i ↔ w.Flagged i := by
  rw [Flagged, Flagged, World.step, BlackholeFS.ns_get_of_lt hi]

theorem open_flagged (hi : i < w.fs.stubs.next) :
    (w.step (.fileOpen h path flags mode)).1.Flagged i ↔
      w.Flagged i ∨ w.fs.Reuses path flags i := by
  rw [Flagged, step_open_fs]
  exact BlackholeFS.open_flag hi path flags mode

theorem close_flagged (hstub : w.Holds h i) (j : ℕ) :
    (w.step (.fileClose h)).1.Flagged j ↔
      w.Flagged j ∧ w.fs.files[(w.file h).path]? ≠ some j :=
  OssFile.close_flag hstub w.fs w.mgr j

end World

end XrdBlackhole
