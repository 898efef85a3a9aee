import XrdBlackhole.Writers

/-!
# The size which `Close` stores

`Close` stores the written bytes when the flag of the held stub is set, whoever
set it, and it clears the flag of the stub at the remembered path, whoever needs
it. As long as no `Close` clears the flag under another open writer, no size
update is lost. A read session keeps all sizes exactly when its stub is not
flagged or still has size zero.
-/

namespace XrdBlackhole

/-- A `Close` leaves the flag alone on which another open writer relies. -/
def SparesWriters (w : World) : Call → Prop
  | .fileClose h => ∀ g i, (w.file h).stub ≠ none → g ≠ h → w.OpenWriter g i →
      w.fs.files[(w.file h).path]? ≠ some i
  | _ => True

def WritersFlagged (w : World) : Prop := ∀ g i, w.OpenWriter g i → w.Flagged i

namespace WritersFlagged
variable {w : World}

theorem init : WritersFlagged {} := by
  intro g i hg
  cases hg.1

theorem fileOpen (hsound : w.Sound) (hw : WritersFlagged w) (h : ℕ) (path : Str)
    (flags mode : CInt) : WritersFlagged (w.step (.fileOpen h path flags mode)).1 := by
  intro g i hg
  have hold : w.OpenWriter g i → (w.step (.fileOpen h path flags mode)).1.Flagged i :=
    fun hgi => (World.open_flagged (hsound.held hgi.holds)).mpr (.inl (hw g i hgi))
  rcases lt_or_ge (w.fs.open path flags mode).1 0 with hrc | hrc
  · exact hold ((World.open_holds_failed hrc).2.mp hg)
  · have hopen := (World.open_holds_ok hrc).2.mp hg
    split_ifs at hopen with hgh
    · have hflag := BlackholeFS.open_flag_bound hopen.2 (BlackholeFS.not_refused_of_rc hrc) hopen.1
      rwa [World.Flagged, World.step_open_fs]
    · exact hold hopen

theorem fileClose (hw : WritersFlagged w) {h : ℕ} (hspare : SparesWriters w (.fileClose h)) :
    WritersFlagged (w.step (.fileClose h)).1 := by
  intro g i hg
  obtain ⟨hgh, hopen⟩ := World.close_holds.2.mp hg
  cases hstub : (w.file h).stub with
  | none =>
    rw [World.Flagged, World.step_close_fs, OssFile.close_none hstub]
    exact hw g i hopen
  | some j =>
    exact (World.close_flagged hstub i).mpr
      ⟨hw g i hopen, hspare g i (by simp [hstub]) hgh hopen⟩

theorem step (hsound : w.Sound) (hw : WritersFlagged w) (c : Call) (hspare : SparesWriters w c) :
    WritersFlagged (w.step c).1 := by
  cases c with
  | ns c =>
    intro g i hg
    have hopen : w.OpenWriter g i := hg
    exact (World.ns_flagged (hsound.held hopen.holds) c).mpr (hw g i hopen)
  | fileOpen h path flags mode => exact hw.fileOpen hsound h path flags mode
  | fileClose h => exact hw.fileClose hspare
  | io h c => exact fun g i hg => hw g i ((World.io_holds c).2.mp hg)
  | stat path => exact hw

end WritersFlagged

def StoresAccepted (s : World × Past) : Call → Prop
  | .fileClose h => ∀ flags, (s.1.step (.fileClose h)).2.rc = XrdOssOK →
      lastFlags h s.2 = some flags → ¬ readOnly flags → accepted h s.2 < 2 ^ 63 →
      ∃ i, s.1.Holds h i ∧
        ((s.1.step (.fileClose h)).1.fs.stubs.get i).size.toNat = accepted h s.2 ∧
        ((s.1.step (.fileClose h)).1.fs.stubs.get i).stat.size.toInt = accepted h s.2
  | _ => True

theorem close_stores {w : World} {past : Past} (hcounts : Counts w past) {h i : ℕ}
    (hopen : w.OpenWriter h i) (hflag : w.Flagged i) (hbytes : accepted h past < 2 ^ 63) :
    ((w.step (.fileClose h)).1.fs.stubs.get i).size.toNat = accepted h past ∧
      ((w.step (.fileClose h)).1.fs.stubs.get i).stat.size.toInt = accepted h past := by
  have hsize := OssFile.close_size hopen.holds w.fs w.mgr i
  rw [if_pos ⟨rfl, hflag⟩, if_pos ⟨rfl, hflag⟩, (hcounts h).written] at hsize
  rw [World.step_close_fs, hsize.1, hsize.2, toNat_ofNat_of_lt hbytes, toInt_ofNat_of_lt hbytes]
  exact ⟨rfl, rfl⟩

/-- No size update is lost in a run which never clears the flag of an open writer. -/
theorem stores_accepted (cs : List Call) (hspare : World.machine.EveryStep SparesWriters {} cs) :
    World.machine.logged.EveryStep StoresAccepted ({}, []) cs := by
  rw [← Machine.everyStep_logged SparesWriters {} []] at hspare
  refine Machine.everyStep_of_invariant (M := World.machine.logged)
    (I := fun s => s.1.Sound ∧ WritersFlagged s.1 ∧ Counts s.1 s.2)
    (fun s c hs hc => ⟨hs.1.step c, hs.2.1.step hs.1 c hc, hs.2.2.step c⟩) ?_
    ⟨.init, .init, .init⟩ hspare
  intro s c hs _
  cases c with
  | fileClose h =>
    intro flags hclose hflags hwrite hbytes
    have hmode : (s.1.file h).stats.wasWrite = true := by
      simp [(hs.2.2 h).wasWrite hflags, hwrite]
    cases hstub : (s.1.file h).stub with
    | none =>
      rw [World.step, OssFile.close_none hstub] at hclose
      exact absurd hclose (show -ENOENT ≠ XrdOssOK by decide)
    | some i =>
      have hopen : s.1.OpenWriter h i := ⟨hstub, hmode⟩
      exact ⟨i, hstub, close_stores hs.2.2 hopen (hs.2.1 h i hopen) hbytes⟩
  | ns c => trivial
  | fileOpen h path flags mode => trivial
  | io h c => trivial
  | stat path => trivial

def sparedWriters : List Call :=
  [.fileOpen 0 "/f".toList O_WRONLY 0o644, .fileOpen 1 "/g".toList O_WRONLY 0o644,
   .fileOpen 2 "/f".toList O_RDONLY 0, .io 0 (.write 0 10), .io 1 (.write 0 4), .fileClose 1,
   .fileClose 0, .fileClose 2]

theorem SparesWriters.of_lt {w : World} {h : ℕ} (n : ℕ) (hidle : ∀ g, (w.file (g + n)).stub = none)
    (hlow : ∀ g < n, g ≠ h → (w.file g).stub ≠ none → (w.file g).stats.wasWrite = true →
      w.fs.files[(w.file h).path]? ≠ (w.file g).stub) : SparesWriters w (.fileClose h) := by
  intro g i _ hg hopen
  rcases lt_or_ge g n with hlt | hge
  · rw [← hopen.holds]
    exact hlow g hlt hg (by rw [hopen.holds]; nofun) hopen.2
  · have hnone := hidle (g - n)
    rw [Nat.sub_add_cancel hge, hopen.holds] at hnone
    cases hnone

theorem stores_accepted_ten :
    World.machine.logged.EveryStep StoresAccepted ({}, []) sparedWriters := by
  refine stores_accepted _ ⟨trivial, trivial, trivial, trivial, trivial, ?_, ?_, ?_, trivial⟩
  · exact .of_lt 3 (fun _ => rfl) (by decide)
  · exact .of_lt 3 (fun _ => rfl) (by decide)
  · exact .of_lt 3 (fun _ => rfl) (by decide)

def twoWriters : List Call :=
  [.fileOpen 0 "/f".toList O_WRONLY 0o644, .fileOpen 1 "/f".toList O_WRONLY 0o644,
   .io 0 (.write 0 10), .fileClose 1, .fileClose 0]

theorem second_close_loses_size :
    ¬ World.machine.logged.EveryStep StoresAccepted ({}, []) twoWriters := by
  intro hall
  obtain ⟨i, hstub, hsize, _⟩ :=
    hall.2.2.2.2.1 O_WRONLY rfl rfl (by decide) (by decide)
  obtain rfl : 0 = i := Option.some.inj hstub
  exact absurd hsize (by decide)

def ReadSession (h : ℕ) (past : Past) : Prop :=
  (∃ flags, lastFlags h past = some flags ∧ readOnly flags) ∧ writesIssued h past = 0

def ReaderKeepsSizes (s : World × Past) : Call → Prop
  | .fileClose h => ReadSession h s.2 → ∀ j, s.1.Shared h j →
      ((s.1.step (.fileClose h)).1.fs.stubs.get j).size = (s.1.fs.stubs.get j).size ∧
      ((s.1.step (.fileClose h)).1.fs.stubs.get j).stat.size = (s.1.fs.stubs.get j).stat.size
  | _ => True

def ReaderUnflagged (s : World × Past) : Call → Prop
  | .fileClose h => ReadSession h s.2 → ∀ i, s.1.Holds h i → s.1.Shared h i →
      ¬ s.1.Flagged i ∨ (s.1.fs.stubs.get i).size = 0 ∧ (s.1.fs.stubs.get i).stat.size = 0
  | _ => True

theorem close_keeps_sizes_iff {w : World} {h i : ℕ} (hstub : w.Holds h i)
    (hzero : (w.file h).written = 0) (j : ℕ) :
    ((w.step (.fileClose h)).1.fs.stubs.get j).size = (w.fs.stubs.get j).size ∧
      ((w.step (.fileClose h)).1.fs.stubs.get j).stat.size = (w.fs.stubs.get j).stat.size ↔
      (j = i → ¬ w.Flagged i ∨ (w.fs.stubs.get i).size = 0 ∧ (w.fs.stubs.get i).stat.size = 0) := by
  have hsize := OssFile.close_size hstub w.fs w.mgr j
  rw [World.step_close_fs, hsize.1, hsize.2, hzero]
  by_cases hj : j = i
  · subst hj
    by_cases hflag : w.Flagged j
    · rw [if_pos ⟨rfl, hflag⟩, if_pos ⟨rfl, hflag⟩]
      simp [hflag, eq_comm]
    · rw [if_neg (fun h => hflag h.2), if_neg (fun h => hflag h.2)]
      simp [hflag]
  · simp [hj]

/-- In every run the read sessions keep all sizes exactly when each of them closes
on a stub which is not flagged or still empty. -/
theorem reader_keeps_sizes_iff (cs : List Call) :
    World.machine.logged.EveryStep ReaderKeepsSizes ({}, []) cs ↔
      World.machine.logged.EveryStep ReaderUnflagged ({}, []) cs := by
  refine Machine.everyStep_congr (M := World.machine.logged) (I := fun s => Counts s.1 s.2)
    (fun s c hs => hs.step c) ?_ .init cs
  intro s c hs
  cases c with
  | fileClose h =>
    refine forall_congr' fun hread => ?_
    have hzero : (s.1.file h).written = 0 := by
      rw [(hs h).written, accepted_eq_zero hread.2]
      rfl
    cases hstub : (s.1.file h).stub with
    | none =>
      have hsame : (s.1.step (.fileClose h)).1.fs = s.1.fs := by
        rw [World.step_close_fs, OssFile.close_none hstub]
      simp [hsame, World.Holds, hstub]
    | some i =>
      simp only [close_keeps_sizes_iff hstub hzero, World.Holds, hstub, Option.some.injEq]
      grind
  | ns c => exact Iff.rfl
  | fileOpen h path flags mode => exact Iff.rfl
  | io h c => exact Iff.rfl
  | stat path => exact Iff.rfl

def readerAmongWriters : List Call :=
  [.fileOpen 0 "/f".toList O_WRONLY 0o644, .io 0 (.write 0 10), .fileClose 0,
   .fileOpen 1 "/f".toList O_RDONLY 0, .fileOpen 2 "/f".toList O_WRONLY 0o644, .fileClose 1]

theorem reader_empties_file :
    ¬ World.machine.logged.EveryStep ReaderKeepsSizes ({}, []) readerAmongWriters := by
  intro hall
  have hkeep := hall.2.2.2.2.2.1 ⟨⟨O_RDONLY, rfl, by decide⟩, rfl⟩ 0 (.inl ⟨"/f".toList, rfl⟩)
  exact absurd hkeep.1 (by decide)

end XrdBlackhole
