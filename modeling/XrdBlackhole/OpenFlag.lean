import XrdBlackhole.Writers

/-!
# Which flag `Close` clears, and what the flag means

`Close` clears the flag of the stub bound at the remembered path. The first part
says when this touches another stub than the held one. The second part asks that
a stub is flagged exactly when an open writer holds it: `KeepsMeaning` is the
condition on a step under which this survives.
-/

namespace XrdBlackhole

def CloseKeepsOthers (w : World) : Call → Prop
  | .fileClose h => ∀ i, w.Holds h i → ∀ j, j ≠ i →
      (w.step (.fileClose h)).1.fs.stubs.get j = w.fs.stubs.get j
  | _ => True

def ClearsOwnFlag (w : World) : Call → Prop
  | .fileClose h => ∀ i, w.Holds h i → ∀ j, w.fs.files[(w.file h).path]? = some j →
      j = i ∨ ¬ w.Flagged j
  | _ => True

theorem close_get_other {w : World} {h i j : ℕ} (hstub : w.Holds h i) (hj : j ≠ i) :
    (w.step (.fileClose h)).1.fs.stubs.get j =
      if w.fs.files[(w.file h).path]? = some j then
        { w.fs.stubs.get j with isOpenWrite := false }
      else w.fs.stubs.get j := by
  have hstore : (OssFile.storeSize w.fs.stubs i (w.file h).written).get j = w.fs.stubs.get j := by
    rw [OssFile.storeSize_get, if_neg (fun hji => hj hji.1)]
  rw [World.step_close_fs, OssFile.close_get hstub, hstore]

theorem closeKeepsOthers_iff (w : World) (c : Call) :
    CloseKeepsOthers w c ↔ ClearsOwnFlag w c := by
  cases c with
  | fileClose h =>
    refine forall₂_congr fun i hstub => ⟨fun hkeep j hpath => ?_, fun hown j hj => ?_⟩
    · by_cases hj : j = i
      · exact .inl hj
      · have hsame := hkeep j hj
        rw [close_get_other hstub hj, if_pos hpath] at hsame
        refine .inr fun hflag => ?_
        rw [World.Flagged, ← hsame] at hflag
        exact absurd hflag (by simp)
    · rw [close_get_other hstub hj]
      split_ifs with hpath
      · have hflag : (w.fs.stubs.get j).isOpenWrite = false := by
          simpa [World.Flagged] using (hown j hpath).resolve_left hj
        rw [← hflag]
      · rfl
  | ns c => exact Iff.rfl
  | fileOpen h path flags mode => exact Iff.rfl
  | io h c => exact Iff.rfl
  | stat path => exact Iff.rfl

/-- In every run all `Close` calls keep to their own stubs exactly when none of
them finds another, flagged stub at its remembered path. -/
theorem close_keeps_others_iff (cs : List Call) :
    World.machine.EveryStep CloseKeepsOthers {} cs ↔
      World.machine.EveryStep ClearsOwnFlag {} cs :=
  Machine.everyStep_congr (M := World.machine) (I := fun _ => True) (fun _ _ _ => trivial)
    (fun w c _ => closeKeepsOthers_iff w c) trivial cs

def recreatedPath : List Call :=
  [.fileOpen 0 "/f".toList O_WRONLY 0o644, .ns (.unlink "/f".toList),
   .fileOpen 1 "/f".toList O_WRONLY 0o644, .fileClose 0]

theorem close_clears_new_file :
    ¬ World.machine.EveryStep CloseKeepsOthers {} recreatedPath := by
  intro hall
  have hkeep := hall.2.2.2.1 0 rfl 1 (by decide)
  exact absurd hkeep (by decide)

namespace World

def Live (w : World) (i : ℕ) : Prop :=
  (∃ p : Str, w.fs.files[p]? = some i) ∨ ∃ h, w.Holds h i

def Written (w : World) (i : ℕ) : Prop := ∃ h, w.OpenWriter h i

theorem Sound.live {w : World} (hw : w.Sound) {i : ℕ} (hi : w.Live i) : i < w.fs.stubs.next := by
  rcases hi with ⟨p, hp⟩ | ⟨h, hh⟩
  · exact hw.fs.bound hp
  · exact hw.held hh

theorem Shared.live {w : World} {h i : ℕ} (hi : w.Shared h i) : w.Live i := by
  rcases hi with hp | ⟨g, _, hg⟩
  · exact .inl hp
  · exact .inr ⟨g, hg⟩

theorem Written.live {w : World} {i : ℕ} (hi : w.Written i) : w.Live i :=
  let ⟨h, hh⟩ := hi
  .inr ⟨h, hh.holds⟩

end World

def FlagMeaning (w : World) : Prop := ∀ i, w.Live i → (w.Flagged i ↔ w.Written i)

def OpenThenClose (w : World) : Call → Prop
  | .fileOpen h _ _ _ => (w.file h).stub = none
  | _ => True

/-- An `Open` whose descriptor reads as an error flags no stub but one with an open
writer. A `Close` clears no flag of another open writer, and the last writer of a
stub which outlives it clears the flag. -/
def KeepsMeaning (w : World) : Call → Prop
  | .fileOpen _ path flags _ =>
      ¬ readOnly flags → ¬ w.fs.Refused path flags →
      BlackholeFS.fdToInt (w.fs.fdLast + 1) < 0 →
      ∃ i, w.fs.Reuses path flags i ∧ w.Written i
  | .fileClose h => ∀ i, w.Holds h i →
      (∀ g j, g ≠ h → w.OpenWriter g j → w.fs.files[(w.file h).path]? ≠ some j) ∧
      (w.OpenWriter h i → w.Shared h i → w.fs.files[(w.file h).path]? ≠ some i →
        ∃ g, g ≠ h ∧ w.OpenWriter g i)
  | _ => True

theorem flagMeaning_init : FlagMeaning {} := by
  intro i hi
  rcases hi with ⟨p, hp⟩ | ⟨h, hh⟩
  · simp at hp
  · cases hh

theorem flagMeaning_ns {w : World} (hsound : w.Sound) (hw : FlagMeaning w) (c : NsCall) :
    FlagMeaning (w.step (.ns c)).1 := by
  intro i hi
  rcases lt_or_ge i w.fs.stubs.next with hlt | hge
  · have hlive : w.Live i := by
      rcases hi with ⟨p, hp⟩ | hheld
      · obtain ⟨q, hq, _⟩ := (BlackholeFS.relocate_spec hlt (.ns c) p).mp hp
        exact .inl ⟨q, hq⟩
      · exact .inr hheld
    exact (World.ns_flagged hlt c).trans (hw i hlive)
  · have hunheld : ¬ (w.step (.ns c)).1.Written i := by
      intro ⟨h, hh⟩
      exact absurd (hsound.held hh.1) (not_lt.mpr hge)
    rcases hi with ⟨p, hp⟩ | ⟨h, hh⟩
    · have hflag := hsound.fs.ns_unflagged c hge hp
      refine iff_of_false ?_ hunheld
      simp [World.Flagged, World.step, hflag]
    · exact absurd (hsound.held hh) (not_lt.mpr hge)

section
variable {w : World} {h : ℕ} {path : Str} {flags mode : CInt}

theorem open_written (hclosed : (w.file h).stub = none)
    (hrc : 0 ≤ (w.fs.open path flags mode).1) (i : ℕ) :
    (w.step (.fileOpen h path flags mode)).1.Written i ↔
      w.Written i ∨
        (w.fs.open path flags mode).2.files[path]? = some i ∧ ¬ readOnly flags := by
  simp only [World.Written, World.open_holds_ok hrc]
  refine ⟨fun ⟨g, hg⟩ => ?_, fun hi => ?_⟩
  · split_ifs at hg
    · exact .inr hg
    · exact .inl ⟨g, hg⟩
  · rcases hi with ⟨g, hg⟩ | hi
    · have hgh : g ≠ h := by
        intro he
        rw [World.OpenWriter, he, hclosed] at hg
        cases hg.1
      exact ⟨g, by rwa [if_neg hgh]⟩
    · exact ⟨h, by rwa [if_pos rfl]⟩

theorem open_live {i : ℕ} (hlt : i < w.fs.stubs.next)
    (hi : (w.step (.fileOpen h path flags mode)).1.Live i) : w.Live i := by
  have hbound : ∀ p : Str, (w.fs.open path flags mode).2.files[p]? = some i → w.Live i := by
    intro p hp
    obtain ⟨q, hq, _⟩ := (BlackholeFS.relocate_open hlt path flags mode p).mp hp
    exact .inl ⟨q, hq⟩
  rcases hi with ⟨p, hp⟩ | ⟨g, hg⟩
  · rw [World.step_open_fs] at hp
    exact hbound p hp
  · rcases lt_or_ge (w.fs.open path flags mode).1 0 with hrc | hrc
    · exact .inr ⟨g, (World.open_holds_failed hrc).1.mp hg⟩
    · have hg := (World.open_holds_ok hrc).1.mp hg
      split_ifs at hg
      · exact hbound path hg
      · exact .inr ⟨g, hg⟩

theorem open_live_fresh (hsound : w.Sound) {i : ℕ} (hge : w.fs.stubs.next ≤ i)
    (hi : (w.step (.fileOpen h path flags mode)).1.Live i) :
    (w.fs.open path flags mode).2.files[path]? = some i ∧ ¬ readOnly flags := by
  have hbound : ∀ p : Str, (w.fs.open path flags mode).2.files[p]? = some i →
      (w.fs.open path flags mode).2.files[path]? = some i ∧ ¬ readOnly flags := by
    intro p hp
    obtain ⟨hpath, hwrite⟩ := hsound.fs.open_fresh hp hge
    exact ⟨hpath ▸ hp, hwrite⟩
  have hunheld : ∀ g, ¬ w.Holds g i := fun g hg => absurd (hsound.held hg) (not_lt.mpr hge)
  rcases hi with ⟨p, hp⟩ | ⟨g, hg⟩
  · rw [World.step_open_fs] at hp
    exact hbound p hp
  · rcases lt_or_ge (w.fs.open path flags mode).1 0 with hrc | hrc
    · exact absurd ((World.open_holds_failed hrc).1.mp hg) (hunheld g)
    · have hg := (World.open_holds_ok hrc).1.mp hg
      split_ifs at hg
      · exact hbound path hg
      · exact absurd hg (hunheld g)

theorem flagMeaning_open_ok (hsound : w.Sound) (hw : FlagMeaning w)
    (hclosed : (w.file h).stub = none) (hrc : 0 ≤ (w.fs.open path flags mode).1) :
    FlagMeaning (w.step (.fileOpen h path flags mode)).1 := by
  have haccept := BlackholeFS.not_refused_of_rc hrc
  intro i hi
  rw [open_written hclosed hrc]
  rcases lt_or_ge i w.fs.stubs.next with hlt | hge
  · rw [World.open_flagged hlt, hw i (open_live hlt hi)]
    by_cases hread : readOnly flags
    · simp [BlackholeFS.Reuses, hread]
    · rw [BlackholeFS.open_path_iff hlt hread haccept]
      simp [hread]
  · have hfresh := open_live_fresh hsound hge hi
    have hflag := BlackholeFS.open_flag_bound hfresh.2 haccept hfresh.1
    rw [World.Flagged, World.step_open_fs]
    exact ⟨fun _ => .inr hfresh, fun _ => hflag⟩

/-- After a failing `Open` the writers are the old ones, so a flag which it has set
is right only where an open writer was already. -/
theorem flagMeaning_open_failed (hsound : w.Sound) (hw : FlagMeaning w)
    (hrc : (w.fs.open path flags mode).1 < 0) :
    FlagMeaning (w.step (.fileOpen h path flags mode)).1 ↔
      ∀ i, (w.step (.fileOpen h path flags mode)).1.Live i → ¬ w.fs.Refused path flags →
        ¬ readOnly flags → (w.fs.open path flags mode).2.files[path]? = some i → w.Written i := by
  have hwriters : ∀ i, (w.step (.fileOpen h path flags mode)).1.Written i ↔ w.Written i := by
    intro i
    simp only [World.Written, World.open_holds_failed hrc]
  refine forall₂_congr fun i hi => ?_
  rw [hwriters]
  rcases lt_or_ge i w.fs.stubs.next with hlt | hge
  · have hold := hw i (open_live hlt hi)
    rw [World.open_flagged hlt, hold]
    by_cases hwrite : readOnly flags
    · simp [BlackholeFS.Reuses, hwrite]
    by_cases href : w.fs.Refused path flags
    · have hreuse : ¬ w.fs.Reuses path flags i := by
        intro hreuse
        rcases href with ⟨hread, _⟩ | ⟨_, _, hexcl⟩
        · exact hwrite hread
        · exact hreuse.2.2.1 hexcl
      simp [href, hreuse]
    · rw [BlackholeFS.open_path_iff hlt hwrite href]
      simp [hwrite, href]
  · have hfresh := open_live_fresh hsound hge hi
    have haccept : ¬ w.fs.Refused path flags := by
      intro href
      rw [BlackholeFS.open_of_refused href] at hfresh
      exact absurd (hsound.fs.bound hfresh.1) (not_lt.mpr hge)
    have hflag := BlackholeFS.open_flag_bound hfresh.2 haccept hfresh.1
    simp [World.Flagged, World.step_open_fs, hflag, haccept, hfresh]

theorem flagMeaning_open (hsound : w.Sound) (hw : FlagMeaning w)
    (hclosed : (w.file h).stub = none) :
    FlagMeaning (w.step (.fileOpen h path flags mode)).1 ↔
      KeepsMeaning w (.fileOpen h path flags mode) := by
  rcases lt_or_ge (w.fs.open path flags mode).1 0 with hrc | hrc
  · rw [flagMeaning_open_failed hsound hw hrc]
    refine ⟨fun hlive hwrite haccept _ => ?_, fun hkeep i hi haccept hwrite hpath => ?_⟩
    · obtain ⟨i, hi⟩ := BlackholeFS.open_bound haccept mode
      have hlive' : (w.step (.fileOpen h path flags mode)).1.Live i :=
        .inl ⟨path, by rwa [World.step_open_fs]⟩
      have hwritten := hlive i hlive' haccept hwrite hi
      have hlt := hsound.live hwritten.live
      exact ⟨i, (BlackholeFS.open_path_iff hlt hwrite haccept).mp hi, hwritten⟩
    · rw [(BlackholeFS.open_of_not_refused haccept mode).1] at hrc
      obtain ⟨j, hreuse, hwritten⟩ := hkeep hwrite haccept hrc
      have hlt := hsound.live hwritten.live
      have hj : (w.fs.open path flags mode).2.files[path]? = some j :=
        (BlackholeFS.open_path_iff hlt hwrite haccept).mpr hreuse
      obtain rfl : i = j := Option.some.inj (hpath.symm.trans hj)
      exact hwritten
  · refine iff_of_true (flagMeaning_open_ok hsound hw hclosed hrc) fun _ haccept hneg => ?_
    rw [(BlackholeFS.open_of_not_refused haccept mode).1] at hrc
    exact absurd hneg (not_lt.mpr hrc)

theorem close_written (i : ℕ) :
    (w.step (.fileClose h)).1.Written i ↔ ∃ g, g ≠ h ∧ w.OpenWriter g i := by
  simp only [World.Written, World.close_holds]

theorem close_live (i : ℕ) : (w.step (.fileClose h)).1.Live i ↔ w.Shared h i := by
  simp only [World.Live, World.Shared, World.close_holds, World.step_close_fs, OssFile.close_files]

theorem flagMeaning_close_none (hw : FlagMeaning w) (hstub : (w.file h).stub = none) :
    FlagMeaning (w.step (.fileClose h)).1 := by
  have hne : ∀ g j, w.OpenWriter g j → g ≠ h := by
    intro g j hg he
    rw [World.OpenWriter, he, hstub] at hg
    cases hg.1
  intro j hj
  have hold := ((close_live j).mp hj).live
  rw [World.Flagged, World.step_close_fs, OssFile.close_none hstub, close_written]
  refine (hw j hold).trans ?_
  constructor
  · rintro ⟨g, hg⟩
    exact ⟨g, hne g j hg, hg⟩
  · rintro ⟨g, -, hg⟩
    exact ⟨g, hg⟩

theorem KeepsMeaning.of_close (hw : FlagMeaning w)
    (hmeaning : FlagMeaning (w.step (.fileClose h)).1) : KeepsMeaning w (.fileClose h) := by
  intro i hstub
  have hflagged := World.close_flagged hstub
  constructor
  · intro g j hg hgj hpath
    have hflag := (hmeaning j ((close_live j).mpr (.inl ⟨_, hpath⟩))).mpr
      ((close_written j).mpr ⟨g, hg, hgj⟩)
    exact ((hflagged j).mp hflag).2 hpath
  · intro hown hshared hpath
    have hflag := (hw i (.inr ⟨h, hstub⟩)).mpr ⟨h, hown⟩
    exact (close_written i).mp
      ((hmeaning i ((close_live i).mpr hshared)).mp ((hflagged i).mpr ⟨hflag, hpath⟩))

theorem KeepsMeaning.close {i : ℕ} (hw : FlagMeaning w) (hstub : (w.file h).stub = some i)
    (hkeep : KeepsMeaning w (.fileClose h)) : FlagMeaning (w.step (.fileClose h)).1 := by
  intro j hj
  obtain ⟨hspare, hlast⟩ := hkeep i hstub
  rw [World.close_flagged hstub, close_written]
  constructor
  · rintro ⟨hflag, hpath⟩
    have hshared := (close_live j).mp hj
    obtain ⟨g, hg⟩ := (hw j hshared.live).mp hflag
    by_cases hgh : g = h
    · rw [hgh] at hg
      obtain rfl : i = j := Option.some.inj (hstub.symm.trans hg.1)
      exact hlast hg hshared hpath
    · exact ⟨g, hgh, hg⟩
  · rintro ⟨g, hgh, hg⟩
    exact ⟨(hw j (.inr ⟨g, hg.1⟩)).mpr ⟨g, hg⟩, hspare g j hgh hg⟩

theorem flagMeaning_close (hw : FlagMeaning w) :
    FlagMeaning (w.step (.fileClose h)).1 ↔ KeepsMeaning w (.fileClose h) := by
  refine ⟨KeepsMeaning.of_close hw, fun hkeep => ?_⟩
  cases hstub : (w.file h).stub with
  | none => exact flagMeaning_close_none hw hstub
  | some i => exact hkeep.close hw hstub

theorem flagMeaning_io (hw : FlagMeaning w) (c : IoCall) : FlagMeaning (w.step (.io h c)).1 := by
  have hwritten : ∀ i, (w.step (.io h c)).1.Written i ↔ w.Written i := by
    intro i
    simp only [World.Written, World.io_holds]
  intro i hi
  have hlive : w.Live i := hi.imp id fun ⟨g, hg⟩ => ⟨g, (World.io_holds c).1.mp hg⟩
  rw [hwritten]
  exact hw i hlive

theorem flagMeaning_step (hsound : w.Sound) (hw : FlagMeaning w) (c : Call)
    (hc : OpenThenClose w c) : FlagMeaning (w.step c).1 ↔ KeepsMeaning w c := by
  cases c with
  | ns c => exact iff_of_true (flagMeaning_ns hsound hw c) trivial
  | fileOpen h path flags mode => exact flagMeaning_open hsound hw hc
  | fileClose h => exact flagMeaning_close hw
  | io h c => exact iff_of_true (flagMeaning_io hw c) trivial
  | stat path => exact iff_of_true hw trivial

end

theorem flagMeaning_always_iff (cs : List Call)
    (hcs : World.machine.EveryStep OpenThenClose {} cs) :
    World.machine.Always FlagMeaning {} cs ↔ World.machine.EveryStep KeepsMeaning {} cs :=
  Machine.always_iff_everyStep (M := World.machine) (I := World.Sound) (fun _ c hw => hw.step c)
    (fun _ c hsound hw hc => flagMeaning_step hsound hw c hc) .init flagMeaning_init hcs

theorem flagMeaning_always_iff_one_writer :
    World.machine.Always FlagMeaning {}
      [.fileOpen 0 "/f".toList O_WRONLY 0o644, .fileClose 0,
       .fileOpen 0 "/f".toList O_RDONLY 0] := by
  refine (flagMeaning_always_iff _ ?_).mpr ?_
  · exact ⟨rfl, trivial, rfl, trivial⟩
  refine ⟨fun _ _ hneg => absurd hneg (by decide), fun i hi => ⟨fun g j hg hopen => ?_, ?_⟩,
    fun hwrite => absurd rfl hwrite, trivial⟩
  · have hopen := (World.open_holds_ok (by decide)).2.mp hopen
    rw [if_neg hg] at hopen
    exact absurd hopen.1 (by simp)
  · intro _ _ hpath
    obtain rfl : 0 = i := Option.some.inj hi
    exact absurd rfl hpath

def renamedPath : List Call :=
  [.fileOpen 0 "/f".toList O_WRONLY 0o644, .ns (.rename "/f".toList "/g".toList), .fileClose 0]

theorem flag_stays_after_close : ¬ World.machine.Always FlagMeaning {} renamedPath := by
  intro hall
  have hend := hall.2.2.2 0 (.inl ⟨"/g".toList, rfl⟩)
  obtain ⟨g, hg⟩ := hend.mp rfl
  obtain ⟨hne, hopen⟩ := World.close_holds.2.mp hg
  have hopen := (World.open_holds_ok (w := {}) (h := 0) (g := g) (i := 0) (by decide)).2.mp hopen
  rw [if_neg hne] at hopen
  cases hopen.1

end XrdBlackhole
