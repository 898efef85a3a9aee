import XrdBlackhole.Writers
import XrdBlackhole.SequentialRead

/-!
# Calls which stay away from a file

`Away h p` are the calls which neither use the handle `h` nor touch the path `p`.
While `p` names a stub which no handle but `h` holds, such a call changes neither
the handle nor the stub nor the binding.
-/

namespace XrdBlackhole

namespace BlackholeFS
variable {fs : BlackholeFS} {p : Str} {i : ℕ}

theorem open_files_of_ne {fname : Str} (hne : p ≠ fname) (flags mode : CInt) :
    (fs.open fname flags mode).2.files[p]? = fs.files[p]? := by
  have hcase := open_case fs fname flags mode
  generalize fs.open fname flags mode = r at hcase
  cases hcase with
  | missing _ _ => rfl
  | exclusive stub _ _ _ => rfl
  | read stub _ _ => rfl
  | reuse stub _ _ _ _ => rfl
  | create _ _ => rw [create_files, if_neg hne]

theorem Sound.open_get_of_ne (h : fs.Sound) (hp : fs.files[p]? = some i) {fname : Str}
    (hne : p ≠ fname) (flags mode : CInt) :
    (fs.open fname flags mode).2.stubs.get i = fs.stubs.get i := by
  have hother : ∀ stub, fs.files[fname]? = some stub → i ≠ stub :=
    fun stub hfile his => hne (h.distinct hp (his ▸ hfile))
  have hcase := open_case fs fname flags mode
  generalize fs.open fname flags mode = r at hcase
  cases hcase with
  | missing _ _ => rfl
  | exclusive stub _ _ _ => rfl
  | read stub _ hfile =>
    simp only [openRead, Heap.modify_get_of_ne _ (hother stub hfile)]
  | reuse stub _ hfile _ _ =>
    simp only [BlackholeFS.reuse, Heap.modify_get_of_ne _ (hother stub hfile)]
  | create _ _ => exact Heap.alloc_get_of_lt _ _ (h.bound hp)

end BlackholeFS

def NsCall.Avoids (p : Str) : NsCall → Prop
  | .seed path _ _ => p ≠ path
  | .createDefaults path => ∀ spec ∈ BlackholeFS.specs, p ≠ path ++ spec.1
  | .rename src dst => p ≠ src ∧ p ≠ dst
  | .unlink fname => p ≠ fname

theorem BlackholeFS.ns_files_of_avoids {fs : BlackholeFS} {p : Str} {c : NsCall}
    (hc : c.Avoids p) : (fs.ns c).2.files[p]? = fs.files[p]? := by
  have hseed : ∀ (fs' : BlackholeFS) (path : Str) (size : Word) (readtype : Str), p ≠ path →
      (fs'.seed path size readtype).files[p]? = fs'.files[p]? := by
    intro fs' path size readtype hne
    rw [seed_files, if_neg (fun h => hne h.1)]
  cases c with
  | seed path size readtype => exact hseed fs path size readtype hc
  | createDefaults path =>
    refine (hseed _ _ _ _ ?_).trans ((hseed _ _ _ _ ?_).trans (hseed _ _ _ _ ?_))
    · exact hc _ (.tail _ (.tail _ (.head _)))
    · exact hc _ (.tail _ (.head _))
    · exact hc _ (.head _)
  | rename src dst =>
    simp only [BlackholeFS.ns]
    cases hsrc : fs.files[src]? with
    | none => rw [rename_unbound hsrc]
    | some stub => rw [rename_bound hsrc, if_neg hc.2, if_neg hc.1]
  | unlink fname =>
    simp only [BlackholeFS.ns]
    rw [unlink_files, if_neg hc]

def Away (h : ℕ) (p : Str) (w : World) : Call → Prop
  | .ns c => c.Avoids p
  | .fileOpen g path _ _ => g ≠ h ∧ p ≠ path
  | .fileClose g => g ≠ h ∧ p ≠ (w.file g).path
  | .io g _ => g ≠ h
  | .stat _ => True

structure Owned (h : ℕ) (p : Str) (i : ℕ) (w : World) : Prop where
  sound : w.Sound
  bound : w.fs.files[p]? = some i
  alone : ∀ g, g ≠ h → ¬ w.Holds g i

structure Untouched (h : ℕ) (p : Str) (i : ℕ) (w w' : World) : Prop where
  owned : Owned h p i w'
  stub : w'.fs.stubs.get i = w.fs.stubs.get i

theorem Away.not_uses {h : ℕ} {p : Str} {w : World} {c : Call} (hc : Away h p w c) :
    ¬ Uses h c := by
  cases c with
  | ns c => exact not_false
  | fileOpen g path flags mode => exact hc.1
  | fileClose g => exact hc.1
  | io g c => exact hc
  | stat path => exact not_false

theorem Away.file {h : ℕ} {p : Str} {w : World} {c : Call} (hc : Away h p w c) :
    (w.step c).1.file h = w.file h :=
  World.step_file_of_not_uses hc.not_uses

namespace Owned
variable {h i : ℕ} {p : Str} {w : World}

theorem away_open (hw : Owned h p i w) {g : ℕ} {path : Str} (flags mode : CInt)
    (hpath : p ≠ path) : Untouched h p i w (w.step (.fileOpen g path flags mode)).1 := by
  have hbound : (w.fs.open path flags mode).2.files[p]? = some i :=
    (BlackholeFS.open_files_of_ne hpath flags mode).trans hw.bound
  refine ⟨⟨hw.sound.step _, ?_, fun k hk hheld => ?_⟩, ?_⟩
  · rwa [World.step_open_fs]
  · rcases lt_or_ge (w.fs.open path flags mode).1 0 with hrc | hrc
    · exact hw.alone k hk ((World.open_holds_failed hrc).1.mp hheld)
    · have hheld := (World.open_holds_ok hrc).1.mp hheld
      split_ifs at hheld
      · exact hpath ((hw.sound.fs.open path flags mode).distinct hbound hheld)
      · exact hw.alone k hk hheld
  · rw [World.step_open_fs]
    exact hw.sound.fs.open_get_of_ne hw.bound hpath flags mode

theorem away_close (hw : Owned h p i w) {g : ℕ} (hg : g ≠ h) (hpath : p ≠ (w.file g).path) :
    Untouched h p i w (w.step (.fileClose g)).1 := by
  refine ⟨⟨hw.sound.step _, ?_, fun k hk hheld => ?_⟩, ?_⟩
  · rw [World.step_close_fs, OssFile.close_files]
    exact hw.bound
  · exact hw.alone k hk (World.close_holds.1.mp hheld).2
  · rw [World.step_close_fs]
    cases hstub : (w.file g).stub with
    | none => rw [OssFile.close_none hstub]
    | some j =>
      have hij : i ≠ j := fun he => hw.alone g hg (he ▸ hstub)
      have hunbound : w.fs.files[(w.file g).path]? ≠ some i :=
        fun hi => hpath (hw.sound.fs.distinct hw.bound hi)
      rw [OssFile.close_get hstub, if_neg hunbound, OssFile.storeSize_get,
        if_neg (fun hji => hij hji.1)]

theorem away (hw : Owned h p i w) {c : Call} (hc : Away h p w c) :
    Untouched h p i w (w.step c).1 := by
  cases c with
  | ns c =>
    refine ⟨⟨hw.sound.step _, ?_, hw.alone⟩, ?_⟩
    · exact (BlackholeFS.ns_files_of_avoids hc).trans hw.bound
    · exact BlackholeFS.ns_get_of_lt (hw.sound.fs.bound hw.bound) c
  | fileOpen g path flags mode => exact hw.away_open flags mode hc.2
  | fileClose g => exact hw.away_close hc.1 hc.2
  | io g c =>
    refine ⟨⟨hw.sound.step _, hw.bound, fun k hk hheld => ?_⟩, rfl⟩
    exact hw.alone k hk ((World.io_holds c).1.mp hheld)
  | stat path => exact ⟨hw, rfl⟩

end Owned

end XrdBlackhole
